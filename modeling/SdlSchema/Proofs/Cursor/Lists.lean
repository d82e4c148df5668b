/-
# Lists of names

A list is taken name by name.  Each turn of its loop goes over trivia to look for another name, and
goes back to where it was if there is none, so that the index of the last token stays that of the
last name or marker; the text of the list ends there.

* `Reaches` : an attempt gives the index of the last token that a reader reads;
* `Reaches.turns` : a loop whose turns go on as a list does goes to the end of the list;
* `Follows.nameList` : a list is taken, and its text is sliced out.
-/
import SdlSchema.Proofs.Reading.Elements
import SdlSchema.Proofs.Cursor.Pieces

namespace SdlSchema

namespace Attempt

open Walk

/-! ## Walks -/

/-- Takes the markers on the line of a name, if the list has markers. -/
def itemMarkers (hasMarkers : Bool) : Walk (Option String) :=
  if hasMarkers then acceptMarkers Token.isInlineTrivia else pure none

/-- Takes a name and its markers, and gives the index of the last token. -/
def listItem (hasMarkers : Bool) : Attempt Nat := do
  let _ ← expectName
  let _ ← itemMarkers hasMarkers
  lastTaken

/-- Takes `|` and one more item, if the list goes on so. -/
def pipeTurn (hasMarkers : Bool) (last : Nat) : Attempt (Nat ⊕ Nat) := do
  let save ← position
  skipTrivia
  if ← eat (.punctuation .pipe) then do
    skipTrivia
    let last ← listItem hasMarkers
    pure (.inl last)
  else do
    goTo save
    pure (.inr last)

/-- Takes `&` or a comma. -/
def eatJoiner : Walk Bool := do
  if ← eat (.punctuation .ampersand) then pure true else eat (.punctuation .comma)

/-- Takes one more interface, behind `&` or a comma or on the same line, if the list goes on so. -/
def interfaceTurn (last : Nat) : Attempt (Nat ⊕ Nat) := do
  let save ← position
  skipTrivia
  if ← eatJoiner then do
    skipTrivia
    let last ← listItem false
    pure (.inl last)
  else do
    goTo save
    skipInline
    match ← eatName with
    | some _ => do
      let last ← lastTaken
      pure (.inl last)
    | none => do
      goTo save
      pure (.inr last)

/-- Takes the mark with which a list may begin. -/
def leadingMark (lead : Punctuation) : Walk Unit := do
  if ← eat (.punctuation lead) then skipTrivia else pure ()

/-- Takes a list of names, and gives its text. -/
def nameList (lead : Punctuation) (item : Attempt Nat) (turn : Nat → Attempt (Nat ⊕ Nat)) :
    Attempt String := do
  let first ← position
  leadingMark lead
  let last ← item
  let last ← turns turn last
  slice first last

/-- Takes union members. -/
def members : Attempt String := nameList .pipe (listItem true) (pipeTurn true)

/-- Takes directive locations. -/
def locations : Attempt String := nameList .pipe (listItem false) (pipeTurn false)

/-- Takes implemented interfaces. -/
def interfaces : Attempt String := nameList .ampersand (listItem false) interfaceTurn

/-! ## To the last token -/

variable {α : Type} {text : List Char} {start : Nat} {run rest : Run}

/-- The attempt gives the index of the last token in front of what a reader leaves, and ends there;
or it misses as the reader does. -/
def Reaches (attempt : Attempt Nat) (text : List Char) (start : Nat) (left : Except Miss Run) :
    Prop :=
  Returns attempt.run (Source.of text) start fun result stop =>
    match left with
    | .ok rest => (∃ last, result = .ok last ∧ stop = last + 1) ∧ At text stop rest
    | .error miss => result = .error miss

/-- A turn takes the further item with which a list goes on, or it misses; or, if the list does not
go on, it stays where it was and gives the index of the last token. -/
def TurnsOut (text : List Char) (last : Nat) (next : Except Miss (Option (α × Run)))
    (result : Except Miss (Nat ⊕ Nat)) (stop : Nat) : Prop :=
  match next with
  | .ok (some (_, rest)) =>
    (∃ last', result = .ok (.inl last') ∧ stop = last' + 1) ∧ At text stop rest
  | .ok none => result = .ok (.inr last) ∧ stop = last + 1
  | .error miss => result = .error miss

/-- Each turn goes on as a list does. -/
def Continues (turn : Nat → Attempt (Nat ⊕ Nat)) (text : List Char) (tail : ListTail α) : Prop :=
  ∀ ⦃last run⦄, At text (last + 1) run →
    Returns (turn last).run (Source.of text) (last + 1) (TurnsOut text last (tail.next run))

/-- The reader of an item, with the markers on its line if the list has markers. -/
def itemReader (hasMarkers : Bool) : Reader Element :=
  if hasMarkers then Element.reader else Element.bareReader

/-- What is left behind the markers of an item. -/
def afterItemMarkers (hasMarkers : Bool) (run : Run) : Run :=
  if hasMarkers then (run.acceptMarkers Token.isInlineTrivia).2 else run

theorem map_snd_itemReader_read (hasMarkers : Bool) (run : Run) :
    ((itemReader hasMarkers).read run).map Prod.snd
      = run.expectName.map fun found => afterItemMarkers hasMarkers found.2 := by
  cases hasMarkers <;> cases hname : run.expectName <;>
    simp [itemReader, Element.reader, Element.bareReader, hname, Except.map, afterItemMarkers]

theorem returns_itemMarkers {hasMarkers : Bool} (hshort : Text.byteLength text < 2 ^ 32)
    (h : At text start run) :
    Returns (itemMarkers hasMarkers) (Source.of text) start fun _ stop =>
      At text stop (afterItemMarkers hasMarkers run) := by
  cases hasMarkers with
  | false => exact .pure h
  | true =>
    exact (returns_acceptMarkers hshort h skipsTrivia_isInlineTrivia).weaken
      fun _ _ hfound => hfound.2

/-- What a list leaves is what it leaves behind the item with which it goes on. -/
theorem map_snd_read (tail : ListTail α) (run : Run) :
    (tail.read run).map Prod.snd = match tail.next run with
      | .ok (some (_, rest)) => (tail.read rest).map Prod.snd
      | .ok none => .ok run
      | .error miss => .error miss := by
  rw [ListTail.read.eq_def]
  split
  · next hnext => rw [hnext]; rfl
  · next hnext => rw [hnext]; rfl
  · next item rest hnext =>
    rw [hnext]
    dsimp only
    split <;> next hread => simp [hread, Except.map]

namespace Reaches

/-- Behind what a reader takes stands a token that was taken last. -/
theorem lastTaken (h : At text start run) {stop : Nat} (hstop : At text stop rest)
    (hleft : Left rest run) : Reaches (liftM Walk.lastTaken) text stop (.ok rest) := by
  obtain ⟨last, rfl⟩ := Nat.exists_eq_add_one_of_ne_zero
    (Nat.ne_zero_of_lt (h.lt_of_left hstop hleft))
  exact ⟨.ok last, last + 1, rfl, ⟨last, rfl, rfl⟩, hstop⟩

/-- An item is taken up to its last token. -/
theorem listItem (hasMarkers : Bool) (hshort : Text.byteLength text < 2 ^ 32)
    (h : At text start run) :
    Reaches (Attempt.listItem hasMarkers) text start
      (((itemReader hasMarkers).read run).map Prod.snd) := by
  rw [map_snd_itemReader_read]
  have hname := Follows.expectName h
  cases hread : run.expectName with
  | error miss =>
    rw [hread] at hname
    exact returns_bind hname (fun _ _ hresult => nomatch hresult)
      fun _ _ hmiss => congrArg Except.error (Except.error.inj hmiss)
  | ok found =>
    rw [hread] at hname
    refine returns_bind hname (fun _ stop hresult => ?_) fun _ _ hresult => nomatch hresult.1
    refine returns_lift (returns_itemMarkers hshort hresult.2) fun _ _ hstop => ?_
    have hsuffix : afterItemMarkers hasMarkers found.2 <:+ found.2 := by
      rw [afterItemMarkers]
      split
      · exact Run.acceptMarkers_suffix _ _
      · exact List.suffix_refl _
    exact lastTaken h hstop ((Run.expectName_left hread).of_suffix hsuffix)

/-- A loop whose turns go on as a list does goes to the end of the list. -/
theorem turns {turn : Nat → Attempt (Nat ⊕ Nat)} {tail : ListTail α} {last : Nat}
    (hturn : Continues turn text tail) (h : At text (last + 1) run) :
    Reaches (Attempt.turns turn last) text (last + 1) ((tail.read run).map Prod.snd) := by
  -- what is left of the list after each turn misses, or leaves, as the whole list does
  refine returns_turns (fun last position => ∃ left, position = last + 1 ∧
    At text position left ∧ (tail.read left).map Prod.snd = (tail.read run).map Prod.snd)
    ⟨run, rfl, h, rfl⟩ h.le ?_
  rintro last position ⟨left, rfl, hleft, hsame⟩
  refine (hturn hleft).weaken fun result stop hresult => ?_
  rw [map_snd_read] at hsame
  cases hnext : tail.next left with
  | error miss =>
    rw [hnext] at hsame hresult
    rw [hresult, ← hsame]
  | ok found =>
    cases found with
    | none =>
      rw [hnext] at hsame hresult
      obtain ⟨rfl, rfl⟩ := hresult
      rw [← hsame]
      exact ⟨⟨last, rfl, rfl⟩, hleft⟩
    | some found =>
      obtain ⟨item, rest⟩ := found
      rw [hnext] at hsame hresult
      obtain ⟨⟨last', rfl, rfl⟩, hrest⟩ := hresult
      exact ⟨⟨rest, rfl, hrest, hsame⟩, hleft.lt_of_left hrest (tail.left hnext), hrest.le⟩

end Reaches

/-! ## How lists go on -/

/-- Behind a mark that joins, trivia and one more item are taken. -/
theorem returns_joined (hasMarkers : Bool) {last : Nat} {joined : Run}
    (hshort : Text.byteLength text < 2 ^ 32) (h : At text start joined) :
    Returns (do skipTrivia; let last ← Attempt.listItem hasMarkers; pure (.inl last) :
        Attempt (Nat ⊕ Nat)).run (Source.of text) start
      (TurnsOut text last (((itemReader hasMarkers).read joined.skipTrivia).map some)) := by
  refine returns_lift (returns_skipWhile h _) fun _ stop hstop => ?_
  have hitem := Reaches.listItem hasMarkers hshort hstop
  rw [← Run.skipTrivia] at hitem
  cases hread : (itemReader hasMarkers).read joined.skipTrivia with
  | error miss =>
    rw [hread] at hitem
    refine returns_bind hitem (fun _ _ hresult => ?_) fun _ _ hmiss => ?_
    · cases hresult
    · exact congrArg Except.error (Except.error.inj hmiss)
  | ok found =>
    rw [hread] at hitem
    refine returns_bind hitem (fun last stop hresult => ?_) fun _ _ hresult => ?_
    · obtain ⟨⟨_, hlast, hend⟩, hrest⟩ := hresult
      cases hlast
      exact .pure ⟨⟨last, rfl, hend⟩, hrest⟩
    · obtain ⟨⟨_, hlast, -⟩, -⟩ := hresult
      cases hlast

theorem continues_pipeTurn (hasMarkers : Bool) (hshort : Text.byteLength text < 2 ^ 32) :
    Continues (pipeTurn hasMarkers) text (ListTail.piped (itemReader hasMarkers)) := by
  intro last run h
  refine returns_step (position_eq _ _) (returns_lift (returns_skipWhile h _)
    fun _ stop hstop => ?_)
  simp only [ListTail.piped]
  cases htake : run.skipTrivia.take? (.punctuation .pipe) with
  | none =>
    exact returns_step (eat_of_take?_none hstop htake) (returns_step (goTo_eq h) (.pure ⟨rfl, rfl⟩))
  | some rest =>
    obtain ⟨heat, hrest⟩ := eat_of_take? hstop htake
    exact returns_step heat (returns_joined hasMarkers hshort hrest)

/-- One of the two marks is taken where the readers look for it. -/
theorem eatJoiner_of_some (h : At text start run.skipTrivia)
    (hjoiner : ListTail.afterJoiner? run = some rest) :
    eatJoiner (Source.of text) start = .ok (true, start + 1) ∧ At text (start + 1) rest := by
  rcases Option.or_eq_some_iff.mp hjoiner with htake | ⟨hnone, htake⟩
  · obtain ⟨heat, hrest⟩ := eat_of_take? h htake
    exact ⟨bind_eq_ok.mpr ⟨_, heat, rfl⟩, hrest⟩
  · obtain ⟨heat, hrest⟩ := eat_of_take? h htake
    exact ⟨bind_eq_ok.mpr ⟨_, eat_of_take?_none h hnone, heat⟩, hrest⟩

theorem eatJoiner_of_none (h : At text start run.skipTrivia)
    (hjoiner : ListTail.afterJoiner? run = none) :
    eatJoiner (Source.of text) start = .ok (false, start) := by
  obtain ⟨hampersand, hcomma⟩ := Option.or_eq_none_iff.mp hjoiner
  exact bind_eq_ok.mpr ⟨_, eat_of_take?_none h hampersand, eat_of_take?_none h hcomma⟩

theorem continues_interfaceTurn (hshort : Text.byteLength text < 2 ^ 32) :
    Continues interfaceTurn text ListTail.joined := by
  intro last run h
  refine returns_step (position_eq _ _) (returns_lift (returns_skipWhile h _)
    fun _ stop hstop => ?_)
  simp only [ListTail.joined]
  cases hjoiner : ListTail.afterJoiner? run with
  | some rest =>
    obtain ⟨heat, hrest⟩ := eatJoiner_of_some hstop hjoiner
    exact returns_step heat (returns_joined false hshort hrest)
  | none =>
    refine returns_step (eatJoiner_of_none hstop hjoiner) (returns_step (goTo_eq h) ?_)
    refine returns_lift (returns_skipWhile h _) fun _ stop hstop => ?_
    simp only [Element.bareReader, Run.expectName]
    cases hname : run.skipInline.name? with
    | none =>
      exact returns_step (eatName_of_name?_none hstop hname)
        (returns_step (goTo_eq h) (.pure ⟨rfl, rfl⟩))
    | some found =>
      obtain ⟨name, rest⟩ := found
      obtain ⟨heat, hrest⟩ := eatName_of_name? hstop hname
      exact returns_step heat (returns_step (lastTaken_eq _ _) (.pure ⟨⟨stop, rfl, rfl⟩, hrest⟩))

/-! ## Whole lists -/

theorem returns_leadingMark {lead : Punctuation} (h : At text start run) :
    Returns (leadingMark lead) (Source.of text) start fun _ stop =>
      At text stop (((run.take? (.punctuation lead)).map Run.skipTrivia).getD run) := by
  cases htake : run.take? (.punctuation lead) with
  | none => exact .step (eat_of_take?_none h htake) (.pure h)
  | some rest =>
    obtain ⟨heat, hrest⟩ := eat_of_take? h htake
    exact .step heat (returns_skipWhile hrest _)

/-- Behind the last token that a reader reads the next attempt goes on; a miss is the miss of both.
-/
theorem Reaches.bind {β δ : Type} {attempt : Attempt Nat} {next : Nat → Attempt β}
    {first : Except Miss (δ × Run)} {second : δ × Run → Except Miss (α × Run)} {tell : α → β}
    (hattempt : Reaches attempt text start (first.map Prod.snd))
    (hnext : ∀ found rest last, first = .ok (found, rest) → At text (last + 1) rest →
      Follows (next last) text (last + 1) tell (second (found, rest))) :
    Follows (attempt >>= next) text start tell (first >>= second) := by
  cases first with
  | error miss =>
    exact returns_bind hattempt (fun _ _ hresult => nomatch hresult)
      fun _ _ hmiss => congrArg Except.error (Except.error.inj hmiss)
  | ok found =>
    refine returns_bind hattempt (fun last stop hresult => ?_) fun _ _ hresult => ?_
    · obtain ⟨⟨_, hlast, rfl⟩, hrest⟩ := hresult
      cases hlast
      exact hnext found.1 found.2 last rfl hrest
    · obtain ⟨⟨_, hlast, -⟩, -⟩ := hresult
      cases hlast

/-- A list is taken, and its text is sliced out. -/
theorem Follows.nameList {lead : Punctuation} (hasMarkers : Bool)
    {turn : Nat → Attempt (Nat ⊕ Nat)} {tail : ListTail Element}
    (hshort : Text.byteLength text < 2 ^ 32) (hturn : Continues turn text tail)
    (h : At text start run) :
    Follows (Attempt.nameList lead (Attempt.listItem hasMarkers) turn) text start
      (fun list => list.run.text)
      ((NameList.reader lead (itemReader hasMarkers) tail).read run) := by
  have hleft : ∀ list rest, (NameList.reader lead (itemReader hasMarkers) tail).read run
      = .ok (list, rest) → Left rest run := fun _ _ hread => (NameList.reader ..).left hread
  simp only [NameList.reader] at hleft ⊢
  refine step (position_eq _ _) (lift (returns_leadingMark h) fun _ stop hstop => ?_)
  have hitem := Reaches.listItem hasMarkers hshort hstop
  refine hitem.bind fun first afterFirst last hfirst hafter => ?_
  refine (Reaches.turns hturn hafter).bind fun others rest last hothers hrest => ?_
  have hlist := hleft _ _ (bind_eq_ok.mpr ⟨_, hfirst, bind_eq_ok.mpr ⟨_, hothers, rfl⟩⟩)
  refine walk ((returns_slice hshort h hrest hlist).weaken ?_)
  rintro _ _ ⟨hslice, rfl⟩
  exact ⟨hslice, hrest⟩

theorem Follows.members (hshort : Text.byteLength text < 2 ^ 32) (h : At text start run) :
    Follows Attempt.members text start (fun list => list.run.text) (NameList.members.read run) :=
  nameList true hshort (continues_pipeTurn true hshort) h

theorem Follows.locations (hshort : Text.byteLength text < 2 ^ 32) (h : At text start run) :
    Follows Attempt.locations text start (fun list => list.run.text)
      (NameList.locations.read run) :=
  nameList false hshort (continues_pipeTurn false hshort) h

theorem Follows.interfaces (hshort : Text.byteLength text < 2 ^ 32) (h : At text start run) :
    Follows Attempt.interfaces text start (fun list => list.run.text)
      (NameList.interfaces.read run) :=
  nameList false hshort (continues_interfaceTurn hshort) h

end Attempt

end SdlSchema
