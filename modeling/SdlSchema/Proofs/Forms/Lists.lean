/-
# Forms of lists of names

A list is a first item and further items, each behind a link: `|` for union members and directive
locations; `&`, a comma or nothing on one line for interfaces.  Reading is greedy: an item takes
all markers on its line, and a list goes on while there is a link and an item behind it.  Nothing
is lost by that.  A list that is read behind a shorter list of its form goes on as if the shorter
one had been read before it, so what is read is the longest list there is.

* `Reader.ReadsForm`, `ListTail.FollowsForm` : a reader of items, or of what a list goes on with,
  against the form that it takes;
* `ListTail.FollowsForm.read_append` : reading behind a list of the form;
* `NameList.piped_read_iff` : the longest list of items joined by `|`.
-/
import SdlSchema.Proofs.Forms.Pieces

namespace SdlSchema

/-! ## Items -/

/-- A name alone. -/
inductive NameForm : Element → Run → Prop
  | mk {token : Token} (hname : token.isName = true) : NameForm ⟨token.word, []⟩ [token]

/-- A name and the markers behind it on its line. -/
inductive MarkedForm : Element → Run → Prop
  | mk {token : Token} {kept marked : Run} (hname : token.isName = true)
      (hmarkers : MarkersForm Token.isInlineTrivia kept marked) :
      MarkedForm ⟨token.word, kept⟩ (token :: marked)

/-- The reader takes exactly the form of an item, up to where such an item ends. -/
structure Reader.ReadsForm (item : Reader Element) (form : Element → Run → Prop)
    (ends : Run → Prop) : Prop where
  of_read : ∀ {run rest : Run} {element : Element}, item.read run = .ok (element, rest) →
    ∃ matched, run = matched ++ rest ∧ form element matched ∧ ends rest
  read : ∀ {matched rest : Run} {element : Element}, form element matched → ends rest →
    item.read (matched ++ rest) = .ok (element, rest)
  /-- Only where a name is missing nothing is read. -/
  named : ∀ {token : Token}, token.isName = true → ∀ tail : Run,
    ∃ found, item.read (token :: tail) = .ok found
  begins : ∀ {matched : Run} {element : Element}, form element matched →
    ∃ token tail, matched = token :: tail ∧ token.isName = true
  /-- An item can be drawn out to where it ends. -/
  extend : ∀ {matched : Run} {element : Element}, form element matched → ∀ rest : Run,
    ∃ element' more left, rest = more ++ left ∧ form element' (matched ++ more) ∧ ends left
  ends_mark : ∀ {gap rest : Run} {token : Token} {mark : Punctuation}, Gap Token.isTrivia gap →
    token.isMark mark = true → ends (gap ++ token :: rest)

namespace Element

theorem bareReader_readsForm : bareReader.ReadsForm NameForm fun _ => True where
  of_read h := by
    obtain ⟨⟨name, left⟩, hname, heq⟩ := bind_eq_ok.mp h
    cases heq
    obtain ⟨token, rfl, htoken, rfl⟩ := Run.expectName_eq_ok hname
    exact ⟨[token], rfl, .mk htoken, trivial⟩
  read h _ := by
    cases h with
    | mk hname =>
      exact bind_eq_ok.mpr ⟨_, Run.expectName_of_isName hname, rfl⟩
  named h _ := ⟨_, bind_eq_ok.mpr ⟨_, Run.expectName_of_isName h, rfl⟩⟩
  begins h := by
    cases h with
    | mk hname => exact ⟨_, [], rfl, hname⟩
  extend h rest := ⟨_, [], rest, rfl, by rwa [List.append_nil], trivial⟩
  ends_mark _ _ := trivial

theorem reader_readsForm :
    reader.ReadsForm MarkedForm fun rest => rest.afterMarkers Token.isInlineTrivia = none where
  of_read h := by
    have hends := afterMarkers_of_read h
    obtain ⟨⟨name, left⟩, hname, heq⟩ := bind_eq_ok.mp h
    cases heq
    obtain ⟨token, rfl, htoken, rfl⟩ := Run.expectName_eq_ok hname
    obtain ⟨marked, hsplit, hmarked⟩ := Run.acceptMarkers_form skipsTrivia_isInlineTrivia left
    exact ⟨token :: marked, congrArg (token :: ·) hsplit, .mk htoken hmarked, hends⟩
  read {matched rest element} h hends := by
    cases h with
    | @mk token kept marked hname hmarkers =>
      refine bind_eq_ok.mpr ⟨(token.word, marked ++ rest), Run.expectName_of_isName hname, ?_⟩
      simp only [Run.acceptMarkers_form_append skipsTrivia_isInlineTrivia hmarkers hends]
      rfl
  named h _ := ⟨_, bind_eq_ok.mpr ⟨_, Run.expectName_of_isName h, rfl⟩⟩
  begins h := by
    cases h with
    | mk hname _ => exact ⟨_, _, rfl, hname⟩
  extend h rest := by
    cases h with
    | mk hname hmarkers =>
      obtain ⟨more, hsplit, hmore⟩ := Run.acceptMarkers_form skipsTrivia_isInlineTrivia rest
      obtain ⟨kept, hkept⟩ := hmarkers.append hmore.markerRun
      exact ⟨_, more, _, hsplit, .mk hname hkept, Run.afterMarkers_acceptMarkers rest⟩
  ends_mark hgap hmark := Run.afterMarkers_gap_eq_none skipsTrivia_isInlineTrivia hgap
    (Token.isTrivia_of_isMark hmark) (Token.isMarker_of_isMark hmark)

end Element

/-! ## Lists -/

/-- A mark with a gap on both sides. -/
inductive MarkLink (joins : Token → Bool) : Run → Prop
  | mk {gap gap' : Run} {mark : Token} (hgap : Gap Token.isTrivia gap) (hmark : joins mark = true)
      (hgap' : Gap Token.isTrivia gap') : MarkLink joins (gap ++ mark :: gap')

/-- The mark `|` between two items. -/
abbrev PipeLink : Run → Prop := MarkLink (Token.isMark .pipe)

/-- What stands between two interfaces: `&` or a comma on whatever line, or nothing but blanks and
comments on one line. -/
inductive InterfaceLink : Run → Prop
  | mark {joint : Run}
      (h : MarkLink (fun token => token.isMark .ampersand || token.isMark .comma) joint) :
      InterfaceLink joint
  | inline {gap : Run} (h : Gap Token.isInlineTrivia gap) : InterfaceLink gap

/-- The mark that a list may begin with and the gap behind it, or nothing. -/
inductive LeadForm (lead : Punctuation) : Run → Prop
  | absent : LeadForm lead []
  | present {mark : Token} {gap : Run} (hmark : mark.isMark lead = true)
      (hgap : Gap Token.isTrivia gap) : LeadForm lead (mark :: gap)

/-- Further items of a list, each behind a link. -/
inductive TailForm (link : Run → Prop) (item : Element → Run → Prop) : List Element → Run → Prop
  | nil : TailForm link item [] []
  | cons {joint matched more : Run} {element : Element} {elements : List Element}
      (hlink : link joint) (hitem : item element matched)
      (hmore : TailForm link item elements more) :
      TailForm link item (element :: elements) (joint ++ (matched ++ more))

/-- A list: perhaps its mark, a first item, and further items. -/
inductive ListForm (lead : Punctuation) (link : Run → Prop) (item : Element → Run → Prop) :
    NameList → Prop
  | mk {front first more : Run} {element : Element} {elements : List Element}
      (hlead : LeadForm lead front) (hfirst : item element first)
      (hmore : TailForm link item elements more) :
      ListForm lead link item ⟨element :: elements, front ++ (first ++ more)⟩

section Forms

variable {link : Run → Prop} {form : Element → Run → Prop} {ends : Run → Prop}
  {item : Reader Element} {tail : ListTail Element} {lead : Punctuation}
  {run rest more : Run} {elements : List Element} {list : NameList}

theorem TailForm.append {more' : Run} {elements' : List Element}
    (h : TailForm link form elements more) (h' : TailForm link form elements' more') :
    TailForm link form (elements ++ elements') (more ++ more') := by
  induction h with
  | nil => exact h'
  | cons hlink hitem _ ih =>
    rw [List.append_assoc, List.append_assoc]
    exact .cons hlink hitem ih

/-- A list with further items behind it is a list again. -/
theorem ListForm.append {more' : Run} {elements' : List Element} (h : ListForm lead link form list)
    (h' : TailForm link form elements' more') :
    ListForm lead link form ⟨list.items ++ elements', list.run ++ more'⟩ := by
  cases h with
  | mk hlead hfirst hmore =>
    rw [List.append_assoc, List.append_assoc]
    exact .mk hlead hfirst (hmore.append h')

/-- A list begins with its mark or with a name. -/
theorem ListForm.begins (hitem : item.ReadsForm form ends) (h : ListForm lead link form list) :
    ∃ token rest, list.run = token :: rest ∧ token.isTrivia = false := by
  cases h with
  | mk hlead hfirst _ =>
    obtain ⟨token, inner, rfl, hname⟩ := hitem.begins hfirst
    cases hlead with
    | absent => exact ⟨token, _, rfl, (Token.of_isName hname).1⟩
    | present hmark _ => exact ⟨_, _, rfl, Token.isTrivia_of_isMark hmark⟩

/-- The last item of a list can be drawn out to where it ends. -/
theorem ListForm.extend (hitem : item.ReadsForm form ends) (h : ListForm lead link form list)
    (rest : Run) : ∃ longer extra left, rest = extra ++ left ∧ ListForm lead link form longer ∧
      longer.run = list.run ++ extra ∧ ends left := by
  -- by induction on the items behind the first, only the last of which is drawn out
  have key : ∀ {element first elements more}, form element first →
      TailForm link form elements more →
      ∃ element' first' elements' more' extra left, rest = extra ++ left ∧ form element' first' ∧
        TailForm link form elements' more' ∧ first' ++ more' = (first ++ more) ++ extra ∧
        ends left := by
    intro element first elements more hfirst hmore
    induction hmore generalizing element first with
    | nil =>
      obtain ⟨element', extra, left, hrest, hform, hends⟩ := hitem.extend hfirst rest
      exact ⟨element', first ++ extra, [], [], extra, left, hrest, hform, .nil, by simp, hends⟩
    | @cons joint matched more next elements hlink hnext _ ih =>
      obtain ⟨next', matched', elements', more', extra, left, hrest, hform, htail, heq, hends⟩ :=
        ih hnext
      refine ⟨element, first, next' :: elements', joint ++ (matched' ++ more'), extra, left, hrest,
        hfirst, .cons hlink hform htail, ?_, hends⟩
      rw [heq]
      simp
  cases h with
  | @mk front first more element elements hlead hfirst hmore =>
    obtain ⟨element', first', elements', more', extra, left, hrest, hform, htail, heq, hends⟩ :=
      key hfirst hmore
    refine ⟨⟨element' :: elements', front ++ (first' ++ more')⟩, extra, left, hrest,
      .mk hlead hform htail, ?_, hends⟩
    rw [heq]
    simp

/-! ## Reading on -/

/-- What a list goes on with is exactly a link and an item. -/
structure ListTail.FollowsForm (tail : ListTail Element) (link : Run → Prop)
    (form : Element → Run → Prop) (ends : Run → Prop) : Prop where
  of_next : ∀ {run rest : Run} {element : Element}, tail.next run = .ok (some (element, rest)) →
    ∃ joint matched, run = joint ++ (matched ++ rest) ∧ link joint ∧ form element matched ∧
      ends rest
  next : ∀ {joint matched rest : Run} {element : Element}, link joint → form element matched →
    ends rest → tail.next (joint ++ (matched ++ rest)) = .ok (some (element, rest))
  ends_link : ∀ {joint matched rest : Run} {element : Element}, link joint →
    form element matched → ends (joint ++ (matched ++ rest))

namespace ListTail

/-- The items read have their form, and the list does not go on behind them. -/
theorem FollowsForm.read_form (htail : tail.FollowsForm link form ends) (hrun : ends run)
    (h : tail.read run = .ok (elements, rest)) :
    ∃ more, run = more ++ rest ∧ TailForm link form elements more ∧ ends rest ∧
      tail.next rest = .ok none := by
  fun_induction ListTail.read tail run generalizing elements rest with
  | case1 run miss hmiss => cases h
  | case2 run hnone => cases h; exact ⟨[], rfl, .nil, hrun, hnone⟩
  | case3 run item left hsome miss hmiss ih => cases h
  | case4 run element left hsome others rest' hothers ih =>
    cases h
    obtain ⟨joint, matched, rfl, hlink, hitem, hleft⟩ := htail.of_next hsome
    obtain ⟨more, rfl, hmore, hends⟩ := ih hleft hothers
    exact ⟨joint ++ (matched ++ more), by simp, .cons hlink hitem hmore, hends⟩

theorem FollowsForm.ends_append (htail : tail.FollowsForm link form ends)
    (h : TailForm link form elements more) (hrest : ends rest) : ends (more ++ rest) := by
  cases h with
  | nil => exact hrest
  | cons hlink hitem _ =>
    rw [List.append_assoc, List.append_assoc]
    exact htail.ends_link hlink hitem

theorem read_of_next {tail : ListTail Element} {left : Run} {element : Element}
    (h : tail.next run = .ok (some (element, left))) :
    tail.read run = (tail.read left).map fun found => (element :: found.1, found.2) := by
  rw [read]
  split
  · next hmiss => rw [h] at hmiss; cases hmiss
  · next hnone => rw [h] at hnone; cases hnone
  · next hsome =>
    rw [h] at hsome
    cases hsome
    cases tail.read left <;> rfl

theorem read_of_next_none {tail : ListTail Element} (h : tail.next run = .ok none) :
    tail.read run = .ok ([], run) := by
  rw [read]
  split
  · next hmiss => rw [h] at hmiss; cases hmiss
  · rfl
  · next hsome => rw [h] at hsome; cases hsome

/-- Behind items of the form, reading goes on as if they had been read before. -/
theorem FollowsForm.read_append (htail : tail.FollowsForm link form ends)
    (h : TailForm link form elements more) (hrest : ends rest) :
    tail.read (more ++ rest)
      = (tail.read rest).map fun found => (elements ++ found.1, found.2) := by
  induction h with
  | nil => cases hread : tail.read rest <;> simp [hread, Except.map]
  | @cons joint matched more element elements hlink hitem hmore ih =>
    rw [List.append_assoc, List.append_assoc,
      read_of_next (htail.next hlink hitem (htail.ends_append hmore hrest)), ih]
    cases tail.read rest <;> rfl

/-! ## The ways in which lists go on -/

theorem piped_followsForm (hitem : item.ReadsForm form ends) :
    (piped item).FollowsForm PipeLink form ends where
  of_next {run rest element} h := by
    simp only [piped] at h
    split at h
    · next inner hpipe =>
      obtain ⟨mark, hmark, hkind⟩ := Run.take?_eq_some hpipe
      obtain ⟨gap, hrun, hgap⟩ := Gap.exists_dropWhile Token.isTrivia run
      obtain ⟨gap', hinner, hgap'⟩ := Gap.exists_dropWhile Token.isTrivia inner
      obtain ⟨matched, hmatched, hform, hends⟩ := hitem.of_read (map_some_eq_ok h)
      refine ⟨gap ++ mark :: gap', matched, ?_, .mk hgap (by simp [Token.isMark, hkind]) hgap',
        hform, hends⟩
      rw [List.append_assoc, List.cons_append, ← hmatched]
      exact hrun.trans (congrArg (gap ++ ·) (hmark.trans (congrArg (mark :: ·) hinner)))
    · cases h
  next {joint matched rest element} hlink hform hends := by
    obtain ⟨token, tail, hmatched, hname⟩ := hitem.begins hform
    cases hlink with
    | @mk gap gap' mark hgap hmark hgap' =>
      have hinner : Run.skipTrivia (gap' ++ (matched ++ rest)) = matched ++ rest := by
        rw [hmatched]
        exact hgap'.skipTrivia (Token.of_isName hname).1
      simp only [piped, List.append_assoc, List.cons_append,
        hgap.skipTrivia (Token.isTrivia_of_isMark hmark), Run.take?_of_isMark hmark, hinner,
        hitem.read hform hends]
      rfl
  ends_link {joint matched rest element} hlink _ := by
    cases hlink with
    | mk hgap hmark _ =>
      rw [List.append_assoc, List.cons_append]
      exact hitem.ends_mark hgap hmark

theorem joined_followsForm : joined.FollowsForm InterfaceLink NameForm fun _ => True where
  of_next {run rest element} h := by
    obtain ⟨gap, hrun, hgap⟩ := Gap.exists_dropWhile Token.isTrivia run
    simp only [joined] at h
    split at h
    · next inner hjoiner =>
      -- either mark joins, and the name may stand on another line
      obtain ⟨mark, hmark, hjoins⟩ : ∃ mark, run.skipTrivia = mark :: inner ∧
          (mark.isMark .ampersand || mark.isMark .comma) = true := by
        rcases Option.or_eq_some_iff.mp hjoiner with htake | ⟨-, htake⟩ <;>
          obtain ⟨mark, hmark, hkind⟩ := Run.take?_eq_some htake <;>
          exact ⟨mark, hmark, by simp [Token.isMark, hkind]⟩
      obtain ⟨gap', hinner, hgap'⟩ := Gap.exists_dropWhile Token.isTrivia inner
      obtain ⟨matched, hmatched, hform, -⟩ :=
        Element.bareReader_readsForm.of_read (map_some_eq_ok h)
      refine ⟨gap ++ mark :: gap', matched, ?_, .mark (.mk hgap hjoins hgap'), hform, trivial⟩
      rw [List.append_assoc, List.cons_append, ← hmatched]
      exact hrun.trans (congrArg (gap ++ ·) (hmark.trans (congrArg (mark :: ·) hinner)))
    · split at h
      · next found hread =>
        cases h
        obtain ⟨matched, hmatched, hform, -⟩ := Element.bareReader_readsForm.of_read hread
        -- without a mark only trivia of the line may come between
        obtain ⟨inline, hsplit, hinline⟩ := Gap.exists_dropWhile Token.isInlineTrivia run
        exact ⟨inline, matched, hsplit.trans (congrArg (inline ++ ·) hmatched), .inline hinline,
          hform, trivial⟩
      · cases h
  next {joint matched rest element} hlink hform _ := by
    obtain ⟨token, tail, rfl, hname⟩ := Element.bareReader_readsForm.begins hform
    obtain ⟨htrivia, -, -, -, -, hnoMark⟩ := Token.of_isName hname
    have hread : Element.bareReader.read (token :: tail ++ rest) = .ok (element, rest) :=
      Element.bareReader_readsForm.read hform trivial
    cases hlink with
    | mark hlink =>
      cases hlink with
      | @mk gap gap' mark hgap hmark hgap' =>
        have hsignificant : mark.isTrivia = false := by
          rcases Bool.or_eq_true_iff.mp hmark with hmark | hmark <;>
            exact Token.isTrivia_of_isMark hmark
        -- the ampersand is looked for first, and a comma only where there is none
        have hjoiner : afterJoiner? (gap ++ mark :: (gap' ++ (token :: tail ++ rest)))
            = some (gap' ++ (token :: tail ++ rest)) := by
          rw [afterJoiner?, hgap.skipTrivia hsignificant]
          cases hand : mark.isMark .ampersand with
          | true => rw [Run.take?_of_isMark hand]; rfl
          | false =>
            rw [hand, Bool.false_or] at hmark
            rw [Run.take?_mark_eq_none hand, Run.take?_of_isMark hmark]
            rfl
        have hinner : Run.skipTrivia (gap' ++ (token :: tail ++ rest)) = token :: tail ++ rest :=
          hgap'.skipTrivia htrivia
        have hassoc : gap ++ mark :: gap' ++ (token :: tail ++ rest)
            = gap ++ mark :: (gap' ++ (token :: tail ++ rest)) := by simp
        rw [hassoc]
        simp only [joined, hjoiner, hinner, hread]
        rfl
    | inline hgap =>
      have hskip : Run.skipInline (joint ++ (token :: tail ++ rest)) = token :: tail ++ rest :=
        hgap.skipInline htrivia
      have hjoiner : afterJoiner? (joint ++ (token :: tail ++ rest)) = none := by
        rw [afterJoiner?, List.cons_append, hgap.of_inline.skipTrivia htrivia,
          Run.take?_mark_eq_none (hnoMark _), Run.take?_mark_eq_none (hnoMark _)]
        rfl
      simp only [joined, hjoiner, hskip, hread]
  ends_link _ _ := trivial

end ListTail

/-! ## Whole lists -/

namespace NameList

/-- What is read as a list has the form of a list and does not go on. -/
theorem reader_form (hitem : item.ReadsForm form ends) (htail : tail.FollowsForm link form ends)
    (h : (reader lead item tail).read run = .ok (list, rest)) :
    run = list.run ++ rest ∧ ListForm lead link form list ∧ ends rest ∧
      tail.next rest = .ok none := by
  have hleft := (reader lead item tail).left h
  obtain ⟨⟨first, afterFirst⟩, hfirst, h⟩ := bind_eq_ok.mp h
  obtain ⟨⟨others, afterOthers⟩, hothers, h⟩ := bind_eq_ok.mp h
  cases h
  obtain ⟨front, hfront, hlead⟩ : ∃ front,
      run = front ++ ((run.take? (.punctuation lead)).map Run.skipTrivia).getD run ∧
        LeadForm lead front := by
    cases htake : run.take? (.punctuation lead) with
    | none => exact ⟨[], rfl, .absent⟩
    | some inner =>
      obtain ⟨mark, rfl, hkind⟩ := Run.take?_eq_some htake
      obtain ⟨gap, hinner, hgap⟩ := Gap.exists_dropWhile Token.isTrivia inner
      have hmark : mark.isMark lead = true := by simp [Token.isMark, hkind]
      exact ⟨mark :: gap, congrArg (mark :: ·) hinner, .present hmark hgap⟩
  obtain ⟨matched, hmatched, hform, hends⟩ := hitem.of_read hfirst
  obtain ⟨more, hmore, htailForm, hends', hnone⟩ := htail.read_form hends hothers
  have hrun : run = (front ++ (matched ++ more)) ++ rest := by
    rw [hfront, hmatched, hmore]
    simp
  have hkept : run.upTo rest = front ++ (matched ++ more) := by
    rw [hrun, Run.upTo_append_left]
  refine ⟨(Run.upTo_append hleft.suffix).symm, ?_, hends', hnone⟩
  rw [hkept]
  exact .mk hlead hform htailForm

/-- Behind a list of the form, reading goes on as if that list had been read before. -/
theorem reader_append (hitem : item.ReadsForm form ends) (htail : tail.FollowsForm link form ends)
    (h : ListForm lead link form list) (hrest : ends rest) :
    (reader lead item tail).read (list.run ++ rest) = (tail.read rest).map fun found =>
      (⟨list.items ++ found.1, (list.run ++ rest).upTo found.2⟩, found.2) := by
  cases h with
  | @mk front first more element elements hlead hfirst hmore =>
    obtain ⟨token, left, rfl, hname⟩ := hitem.begins hfirst
    obtain ⟨htrivia, -, -, -, -, hnoMark⟩ := Token.of_isName hname
    have hstart : ((Run.take? (.punctuation lead)
          (front ++ (token :: left ++ more) ++ rest)).map Run.skipTrivia).getD
        (front ++ (token :: left ++ more) ++ rest) = token :: left ++ (more ++ rest) := by
      rw [List.append_assoc, List.append_assoc]
      cases hlead with
      | absent =>
        rw [List.nil_append, List.cons_append, Run.take?_mark_eq_none (hnoMark lead)]
        rfl
      | present hmark hgap =>
        rw [List.cons_append, Run.take?_of_isMark hmark]
        exact hgap.skipTrivia htrivia
    have hread := hitem.read hfirst (htail.ends_append hmore hrest)
    simp only [reader, hstart, hread]
    show (tail.read (more ++ rest) >>= _) = _
    rw [htail.read_append hmore hrest]
    cases tail.read rest <;> rfl

/-- A list of the form, behind which the list does not go on, is read. -/
theorem reader_of_form (hitem : item.ReadsForm form ends) (htail : tail.FollowsForm link form ends)
    (h : ListForm lead link form list) (hrest : ends rest) (hnone : tail.next rest = .ok none) :
    (reader lead item tail).read (list.run ++ rest) = .ok (list, rest) := by
  rw [reader_append hitem htail h hrest, ListTail.read_of_next_none hnone]
  simp [Except.map, Run.upTo_append_left]

end NameList

/-! ## Longest lists -/

/-- That `list` has the form, stands at the start of `run` and leaves `rest`, and no longer one
does. -/
structure NameList.IsLongest (form : NameList → Prop) (list : NameList) (rest run : Run) :
    Prop where
  isForm : form list
  split : run = list.run ++ rest
  longest : ∀ other left, form other → run = other.run ++ left →
    other.run.length ≤ list.run.length

/-- That the run goes on with `|`, and no name is behind it. -/
def Run.Dangles (run : Run) : Prop :=
  ∃ gap mark tail, run = gap ++ mark :: tail ∧ Gap Token.isTrivia gap ∧
    mark.isMark .pipe = true ∧
    ¬ ∃ gap' name rest, tail = gap' ++ name :: rest ∧ Gap Token.isTrivia gap' ∧ name.isName = true

namespace NameList

/-- The longest list of items joined by `|` is read, unless `|` without a name is behind it. -/
theorem piped_read_iff (hitem : item.ReadsForm form ends) :
    (reader .pipe item (.piped item)).read run = .ok (list, rest) ↔
      IsLongest (ListForm .pipe PipeLink form) list rest run ∧ ¬ rest.Dangles := by
  have htail := ListTail.piped_followsForm hitem
  constructor
  · intro h
    obtain ⟨hrun, hform, hends, hnone⟩ := reader_form hitem htail h
    refine ⟨⟨hform, hrun, ?_⟩, ?_⟩
    · -- the other list, drawn out, leaves a run in which reading would end no earlier
      intro other left hother hsplit
      obtain ⟨longer, extra, left', hleft, hlonger, hlongerRun, hends'⟩ := hother.extend hitem left
      have hrun' : run = longer.run ++ left' := by
        rw [hsplit, hleft, hlongerRun, List.append_assoc]
      rw [hrun', reader_append hitem htail hlonger hends'] at h
      cases hread : (ListTail.piped item).read left' with
      | error miss => rw [hread] at h; cases h
      | ok found =>
        rw [hread] at h
        cases h
        have hle := (ListTail.read_suffix hread).length_le
        have hlen := congrArg List.length (hsplit.symm.trans hrun)
        rw [hleft] at hlen
        simp only [List.length_append] at hlen ⊢
        omega
    · rintro ⟨gap, mark, inner, rfl, hgap, hmark, -⟩
      simp only [ListTail.piped, hgap.skipTrivia (Token.isTrivia_of_isMark hmark),
        Run.take?_of_isMark hmark] at hnone
      cases hread : item.read (Run.skipTrivia inner) with
      | error miss => rw [hread] at hnone; cases hnone
      | ok found => rw [hread] at hnone; cases hnone
  · rintro ⟨⟨hform, hsplit, hlongest⟩, hdangles⟩
    have hends : ends rest := by
      obtain ⟨longer, extra, left, hrest, hlonger, hlongerRun, hends⟩ := hform.extend hitem rest
      have hrun : run = longer.run ++ left := by
        rw [hsplit, hrest, hlongerRun, List.append_assoc]
      have hle := hlongest longer left hlonger hrun
      rw [hlongerRun, List.length_append] at hle
      have hnil : extra = [] := List.length_eq_zero_iff.mp (by omega)
      rw [hrest, hnil]
      exact hends
    rw [hsplit]
    refine reader_of_form hitem htail hform hends ?_
    simp only [ListTail.piped]
    split
    · next inner hpipe =>
      obtain ⟨mark, hmark, hkind⟩ := Run.take?_eq_some hpipe
      have hisMark : mark.isMark .pipe = true := by simp [Token.isMark, hkind]
      obtain ⟨gap, hrest, hgap⟩ := Gap.exists_dropWhile Token.isTrivia rest
      have hrest' : rest = gap ++ mark :: inner := hrest.trans (congrArg (gap ++ ·) hmark)
      -- a name behind `|` would make the list longer, and without one `|` dangles
      refine absurd ⟨gap, mark, inner, hrest', hgap, hisMark, ?_⟩ hdangles
      rintro ⟨gap', name, left, hinner, hgap', hname⟩
      obtain ⟨⟨element, after⟩, hread⟩ := hitem.named hname left
      obtain ⟨matched, hmatched, hitemForm, -⟩ := hitem.of_read hread
      have hlonger := hform.append (.cons (.mk hgap hisMark hgap') hitemForm .nil)
      have hle := hlongest _ after hlonger (by
        rw [hsplit, hrest', hinner, hmatched]
        simp)
      simp only [List.length_append, List.length_cons] at hle
      omega
    · rfl

end NameList

end Forms

end SdlSchema
