/-
# Courses of the scanning loops

Each scanner is a loop: in every turn it attempts to read an item, and takes it or passes something
over.  A turn ends the loop or leaves its start behind, whatever is read and whatever misses.  So
the turns of a whole course start further and further right, there are no more of them than tokens
and one, and the tokens from which the items are read stand one behind the other.

* `Loop`, `Loop.Turn`, `Loop.Course` : a scanning loop, one turn of it, and a whole course;
* `Loop.Progresses` : how turns and courses go on over a source;
* `scanning_loops_progress` : all the loops of the scanners go on so.
-/
import SdlSchema.Proofs.Cursor.Scanners
import SdlSchema.Proofs.Cursor.Advances

namespace SdlSchema

open Walk

variable {β σ ι : Type} {source : Source} {start low : Nat}

/-! ## Loops -/

/-- A loop that scans: its turns, what was found in a state, and the attempt of each turn. -/
structure Loop (σ ι : Type) where
  turn : σ → Walk (σ ⊕ List ι)
  found : σ → List ι
  attempt : Attempt ι
  initial : σ

/-- An item, with the position of its first token and the position behind its last. -/
structure Taken (ι : Type) where
  start : Nat
  stop : Nat
  item : ι

namespace Loop

/-- The walk of a loop, from the state in which nothing was found. -/
def walk (loop : Loop σ ι) : Walk (List ι) := turns loop.turn loop.initial

/-- The loop that looks for declarations. -/
def scan (attempt : Attempt β) : Loop (List (Described β) × Bool) (Described β) where
  turn := Attempt.scanTurn attempt
  found := Prod.fst
  attempt := Attempt.attemptHere attempt
  initial := ([], true)

/-- The loop that takes item after item. -/
def items (attempt : Attempt β) (recover : Nat → Miss → Walk Bool) : Loop (List β) β where
  turn := Attempt.itemTurn attempt recover
  found := id
  attempt := attempt
  initial := []

/-- The loop of each scanner of declarations. -/
def declarations (kind : DeclarationKind) :
    Loop (List (Described kind.Texts) × Bool) (Described kind.Texts) := scan kind.attempt

/-- The loop of the scanner of fields. -/
def fields : Loop (List (Described FieldText)) (Described FieldText) :=
  items (Attempt.described Attempt.field) Attempt.recoverField

/-- The loop of the scanner of arguments. -/
def arguments : Loop (List (Described ArgumentText)) (Described ArgumentText) :=
  items (Attempt.described Attempt.argument) Attempt.recoverArgument

/-- Takes a name with its markers. -/
def element : Attempt ElementText := do
  let name ← Attempt.expectName
  let markers ← acceptMarkers Token.isInlineTrivia
  pure ⟨name, markers⟩

/-- The loop of the scanner of elements. -/
def elements : Loop (List ElementText) ElementText where
  turn := Attempt.elementTurn
  found := id
  attempt := element
  initial := []

/-! ## Turns and courses -/

/-- How a turn ends without a fault: it ends the loop; or it takes an item, further right; or it
passes something over where the attempt missed. -/
inductive Turn (loop : Loop σ ι) (source : Source) (state : σ) (start : Nat) :
    Option (Taken ι) → σ ⊕ List ι → Nat → Prop
  | ended {stop : Nat} : Turn loop source state start none (.inr (loop.found state)) stop
  | took {next : σ} {item : ι} {first stop : Nat} : start ≤ first → first < stop →
      stop ≤ source.lexemes.length → loop.attempt.run source first = .ok (.ok item, stop) →
      loop.found next = loop.found state ++ [item] →
      Turn loop source state start (some ⟨first, stop, item⟩) (.inl next) stop
  | passed {next : σ} {miss : Miss} {first reached stop : Nat} : start ≤ first → first < stop →
      stop ≤ source.lexemes.length → loop.attempt.run source first = .ok (.error miss, reached) →
      loop.found next = loop.found state →
      Turn loop source state start none (.inl next) stop

/-- A course of turns from a state and a position on: where the turns start, what they take, and
how the last of them ends. -/
inductive Course (loop : Loop σ ι) (source : Source) :
    σ → Nat → List Nat → List (Taken ι) → Except Fault (List ι × Nat) → Prop
  | ended {state : σ} {start stop : Nat} :
      loop.turn state source start = .ok (.inr (loop.found state), stop) →
      Course loop source state start [start] [] (.ok (loop.found state, stop))
  | failed {state : σ} {start : Nat} {fault : Fault} :
      loop.turn state source start = .error fault →
      Course loop source state start [start] [] (.error fault)
  | goesOn {state next : σ} {start stop : Nat} {taken : Option (Taken ι)} {turns : List Nat}
      {takens : List (Taken ι)} {outcome : Except Fault (List ι × Nat)} :
      loop.turn state source start = .ok (.inl next, stop) →
      loop.Turn source state start taken (.inl next) stop →
      Course loop source next stop turns takens outcome →
      Course loop source state start (start :: turns) (taken.toList ++ takens) outcome

/-- A loop goes on over a source. -/
structure Progresses (loop : Loop σ ι) (source : Source) : Prop where
  /-- A turn ends the loop or leaves its start behind. -/
  turn : ∀ state start, start ≤ source.lexemes.length →
    Ends (loop.turn state) source start fun outcome stop =>
      ∃ taken, loop.Turn source state start taken outcome stop
  /-- The whole course has one turn more than there are tokens at most, each further right than the
  one before; the items are read from stretches of tokens one behind the other. -/
  course : ∃ turns takens, loop.Course source loop.initial 0 turns takens (loop.walk source 0) ∧
    turns.length ≤ source.lexemes.length + 1 ∧ turns.Pairwise (· < ·) ∧
    (∀ taken ∈ takens, taken.start < taken.stop ∧ taken.stop ≤ source.lexemes.length ∧
      loop.attempt.run source taken.start = .ok (.ok taken.item, taken.stop)) ∧
    takens.Pairwise (fun taken later => taken.stop ≤ later.start) ∧
    ∀ items stop, loop.walk source 0 = .ok (items, stop) → items = takens.map Taken.item
  /-- The bound on the turns is never reached. -/
  ends : loop.walk source 0 ≠ .error .endless

variable {loop : Loop σ ι} {state next : σ} {stop : Nat} {taken : Option (Taken ι)}
  {turns : List Nat} {takens : List (Taken ι)} {outcome : Except Fault (List ι × Nat)}

/-- A turn that goes on leaves its start behind. -/
theorem Turn.start_lt (h : loop.Turn source state start taken (.inl next) stop) :
    start < stop ∧ stop ≤ source.lexemes.length := by
  cases h with
  | took hfirst hlt hle => exact ⟨by omega, hle⟩
  | passed hfirst hlt hle => exact ⟨by omega, hle⟩

/-- What a turn takes stands between its start and where it goes on. -/
theorem Turn.taken_within (h : loop.Turn source state start taken (.inl next) stop) :
    ∀ found ∈ taken.toList, start ≤ found.start ∧ found.start < found.stop ∧ found.stop = stop ∧
      loop.attempt.run source found.start = .ok (.ok found.item, found.stop) := by
  intro found hfound
  cases h with
  | took hfirst hlt hle hrun =>
    obtain rfl := List.mem_singleton.mp hfound
    exact ⟨hfirst, hlt, rfl, hrun⟩
  | passed => cases hfound

theorem Turn.found_eq (h : loop.Turn source state start taken (.inl next) stop) :
    loop.found next = loop.found state ++ taken.toList.map Taken.item := by
  cases h with
  | took _ _ _ _ hfound => exact hfound
  | passed _ _ _ _ hfound => rw [hfound]; exact (List.append_nil _).symm

namespace Course

theorem turns_within (h : loop.Course source state start turns takens outcome)
    (hle : start ≤ source.lexemes.length) :
    ∀ turn ∈ turns, start ≤ turn ∧ turn ≤ source.lexemes.length := by
  induction h with
  | ended | failed => simpa using hle
  | goesOn _ hturn _ ih =>
    obtain ⟨hlt, hstop⟩ := hturn.start_lt
    intro turn hmem
    rcases List.mem_cons.mp hmem with rfl | hmem
    · exact ⟨Nat.le_refl _, hle⟩
    · obtain ⟨hturn, hend⟩ := ih hstop turn hmem
      exact ⟨by omega, hend⟩

theorem turns_pairwise (h : loop.Course source state start turns takens outcome) :
    turns.Pairwise (· < ·) := by
  induction h with
  | ended | failed => exact List.pairwise_singleton _ _
  | goesOn _ hturn hrest ih =>
    obtain ⟨hlt, hstop⟩ := hturn.start_lt
    refine List.pairwise_cons.mpr ⟨fun turn hmem => ?_, ih⟩
    have := (hrest.turns_within hstop turn hmem).1
    omega

/-- Each turn uses up a token, up to the last. -/
theorem length_turns_le (h : loop.Course source state start turns takens outcome)
    (hle : start ≤ source.lexemes.length) :
    turns.length + start ≤ source.lexemes.length + 1 := by
  induction h with
  | ended | failed =>
    rw [List.length_singleton]
    omega
  | goesOn _ hturn _ ih =>
    obtain ⟨hlt, hstop⟩ := hturn.start_lt
    have := ih hstop
    rw [List.length_cons]
    omega

theorem takens_within (h : loop.Course source state start turns takens outcome) :
    ∀ taken ∈ takens, start ≤ taken.start ∧ taken.start < taken.stop ∧
      taken.stop ≤ source.lexemes.length ∧
        loop.attempt.run source taken.start = .ok (.ok taken.item, taken.stop) := by
  induction h with
  | ended | failed => simp
  | goesOn _ hturn _ ih =>
    obtain ⟨hlt, hstop⟩ := hturn.start_lt
    intro taken hmem
    rcases List.mem_append.mp hmem with hmem | hmem
    · obtain ⟨hstart, hne, hend, hrun⟩ := hturn.taken_within taken hmem
      exact ⟨hstart, hne, by omega, hrun⟩
    · obtain ⟨hstart, hrest⟩ := ih taken hmem
      exact ⟨by omega, hrest⟩

theorem takens_pairwise (h : loop.Course source state start turns takens outcome) :
    takens.Pairwise fun taken later => taken.stop ≤ later.start := by
  induction h with
  | ended | failed => exact .nil
  | @goesOn _ _ _ _ taken _ _ _ _ hturn hrest ih =>
    refine List.pairwise_append.mpr ⟨?_, ih, fun first hfirst later hlater => ?_⟩
    · cases taken with
      | none => exact .nil
      | some taken => exact List.pairwise_singleton _ _
    · rw [(hturn.taken_within first hfirst).2.2.1]
      exact (hrest.takens_within later hlater).1

/-- What a course finds is what its turns take. -/
theorem items_eq (h : loop.Course source state start turns takens outcome) {items : List ι}
    (houtcome : outcome = .ok (items, stop)) :
    items = loop.found state ++ takens.map Taken.item := by
  induction h with
  | ended =>
    cases houtcome
    exact (List.append_nil _).symm
  | failed => cases houtcome
  | goesOn _ hturn _ ih =>
    rw [ih houtcome, hturn.found_eq, List.map_append, List.append_assoc]

/-- A course ends with a fault only where a turn has it. -/
theorem ne_endless (h : loop.Course source state start turns takens outcome)
    (hle : start ≤ source.lexemes.length)
    (hturn : ∀ state start, start ≤ source.lexemes.length →
      loop.turn state source start ≠ .error .endless) : outcome ≠ .error .endless := by
  induction h with
  | ended => simp
  | @failed state start fault hrun =>
    rintro ⟨⟩
    exact hturn state start hle hrun
  | goesOn _ hgoes _ ih => exact ih hgoes.start_lt.2

end Course

/-- If each turn ends the loop or leaves its start behind, the turns that a loop takes are a course,
and there are enough of them. -/
theorem exists_course
    (hturn : ∀ state start, start ≤ source.lexemes.length →
      Ends (loop.turn state) source start fun outcome stop =>
        ∃ taken, loop.Turn source state start taken outcome stop) :
    ∀ count state start, start ≤ source.lexemes.length → source.lexemes.length < start + count →
      ∃ turns takens,
        loop.Course source state start turns takens (turnsUpTo loop.turn count state source start)
    := by
  intro count
  induction count with
  | zero => intro state start hle hlt; omega
  | succ count ih =>
    intro state start hle hlt
    have hends := hturn state start hle
    -- one turn, and then the rest of them from where it stopped
    have hsteps : turnsUpTo loop.turn (count + 1) state source start
        = (loop.turn state source start >>= fun (outcome, stop) => match outcome with
          | .inl next => turnsUpTo loop.turn count next source stop
          | .inr items => .ok (items, stop)) := by
      show (loop.turn state source start >>= _) = (loop.turn state source start >>= _)
      cases loop.turn state source start with
      | error fault => rfl
      | ok result => rcases result with ⟨next | items, stop⟩ <;> rfl
    rw [hsteps]
    cases hrun : loop.turn state source start with
    | error fault => exact ⟨[start], [], .failed hrun⟩
    | ok result =>
      obtain ⟨outcome, stop⟩ := result
      obtain ⟨taken, houtcome⟩ := hends.of_ok hrun
      cases outcome with
      | inr items =>
        cases houtcome
        exact ⟨[start], [], .ended hrun⟩
      | inl next =>
        -- the turn moved on, so that the turns that are left are still enough
        obtain ⟨hlt', hstop⟩ := houtcome.start_lt
        obtain ⟨turns, takens, hcourse⟩ := ih next stop hstop (by omega)
        exact ⟨start :: turns, taken.toList ++ takens, .goesOn hrun houtcome hcourse⟩

/-- A loop goes on if each of its turns does. -/
theorem progresses_of_turn (hinitial : loop.found loop.initial = [])
    (hturn : ∀ state start, start ≤ source.lexemes.length →
      Ends (loop.turn state) source start fun outcome stop =>
        ∃ taken, loop.Turn source state start taken outcome stop) :
    loop.Progresses source := by
  obtain ⟨turns, takens, hcourse⟩ := exists_course hturn (source.lexemes.length + 1)
    loop.initial 0 (Nat.zero_le _) (by omega)
  refine ⟨hturn, ⟨turns, takens, hcourse, ?_, hcourse.turns_pairwise, ?_,
    hcourse.takens_pairwise, ?_⟩, ?_⟩
  · exact hcourse.length_turns_le (Nat.zero_le _)
  · exact fun taken hmem => (hcourse.takens_within taken hmem).2
  · intro items stop hitems
    have heq := hcourse.items_eq hitems
    rwa [hinitial, List.nil_append] at heq
  · exact hcourse.ne_endless (Nat.zero_le _) fun state start hle =>
      (hturn state start hle).ne_endless

end Loop

/-! ## Recoveries -/

namespace Attempt

/-- From a position where an item could have begun, a recovery that goes on leaves that position
behind, wherever the attempt missed. -/
def Regains (source : Source) (recover : Nat → Miss → Walk Bool) : Prop :=
  ∀ start here miss, start < source.lexemes.length → here ≤ source.lexemes.length →
    source.lexemes[start]?.any (fun lexeme => lexeme.token.isSeparator) = false →
    Ends (recover start miss) source here fun goesOn stop =>
      stop ≤ source.lexemes.length ∧ (goesOn = true → start < stop)

/-- Where a token is that is no line break, recovering passes over it. -/
theorem ends_recoverToLineEnd (hlt : start < source.lexemes.length)
    (hnewline : source.lexemes[start].token.isNewline = false) :
    Ends recoverToLineEnd source start fun _ stop =>
      start < stop ∧ stop ≤ source.lexemes.length := by
  refine (ends_skipWhile _ (Nat.le_of_lt hlt)).bind fun _ middle ⟨hmiddle, hend, hfirst⟩ => ?_
  have hlt' : start < middle := by
    refine Nat.lt_of_le_of_ne hmiddle ?_
    rintro rfl
    rw [List.getElem?_eq_getElem hlt, Option.any_some, hnewline] at hfirst
    cases hfirst
  have heat : Walk.Within source (start + 1) (eat .newline) := (leads_eat .newline).within
  refine (heat middle hlt' hend).bind fun _ stop ⟨hstart, hend, _⟩ => .pure ?_
  exact ⟨hstart, hend⟩

theorem regains_recoverField : Regains source recoverField := by
  intro start here miss hlt hhere hseparator
  cases miss with
  | exhausted => exact .pure ⟨hhere, fun hfalse => by cases hfalse⟩
  | noMatch =>
    have hnewline : source.lexemes[start].token.isNewline = false := by
      rw [List.getElem?_eq_getElem hlt, Option.any_some] at hseparator
      rw [Bool.eq_false_iff]
      exact fun h => by rw [Token.isSeparator_of_isNewline h] at hseparator; cases hseparator
    refine .step (goTo_of_le (Nat.le_of_lt hlt) here) ?_
    exact (ends_recoverToLineEnd hlt hnewline).bind fun _ stop ⟨hlt, hend⟩ =>
      .pure ⟨hend, fun _ => hlt⟩

theorem regains_recoverArgument : Regains source recoverArgument := by
  intro start here miss hlt hhere _
  refine .step (goTo_of_le hlt here) ?_
  have hskip := within_skipWhile (fun token => !(token.isNewline || token.isMark .comma))
    (start + 1) (Nat.le_refl _) hlt
  exact hskip.bind fun _ stop ⟨hstart, hend, _⟩ => .pure ⟨hend, fun _ => hstart⟩

/-! ## Blocks -/

theorem within_skipBlock : Walk.Within source low skipBlock := by
  refine Walk.leads_position fun save hsave => (leads_eat _).within.bind fun _ => ?_
  refine .ite ((within_balanced _).bind fun closed => ?_) (.pure not_false)
  cases closed with
  | none => exact (within_goTo hsave).bind fun _ => .pure not_false
  | some closed => exact .pure not_false

/-- Where a token is, stepping over a block or a token leaves it behind. -/
theorem takes_stepOver (closable : Bool) :
    Takes source start (stepOver start closable) fun _ => True := by
  intro here hhere hlt
  have hskip : Walk.Within source start (skipClosable closable) :=
    .ite within_skipBlock (.pure not_false)
  refine (hskip here hhere (Nat.le_of_lt hlt)).bind fun closable middle ⟨hmiddle, hend, _⟩ => ?_
  refine .step (position_eq source middle) ?_
  split
  · next heq =>
    refine (takes_bump middle hmiddle (by omega)).bind fun _ stop ⟨hle, hend, hmoved⟩ => .pure ?_
    exact ⟨by omega, hend, fun _ => hmoved trivial⟩
  · next hne => exact .pure ⟨hmiddle, hend, fun _ => by omega⟩

end Attempt

/-! ## The turns of each loop -/

namespace Loop

open Attempt

/-- A turn that looks for a declaration. -/
theorem ends_scanTurn {attempt : Attempt β} (hattempt : ∀ low, Advances source low attempt)
    (state : List (Described β) × Bool) (start : Nat) (hle : start ≤ source.lexemes.length) :
    Ends (scanTurn attempt state) source start fun outcome stop =>
      ∃ taken, (scan attempt).Turn source state start taken outcome stop := by
  refine (within_skipTrivia start (Nat.le_refl start) hle).bind fun _ first ⟨hfirst, hle, _⟩ => ?_
  refine .bind_atEnd (.pure ⟨none, .ended⟩) fun hlt => .step (position_eq source first) ?_
  have hhere := advances_attemptHere (hattempt first) first (Nat.le_refl first) hle
  refine hhere.with_run.bind fun result reached ⟨⟨_, hend, hmoved⟩, hrun⟩ => ?_
  rcases result with (_ | _) | item
  · refine .step (goTo_of_le hle reached) ?_
    refine (takes_stepOver state.2 first (Nat.le_refl first) hlt).bind
      fun closable stop ⟨_, hend, hmoved⟩ => .pure ⟨none, ?_⟩
    exact .passed hfirst (hmoved trivial) hend hrun rfl
  · exact .pure ⟨none, .ended⟩
  · exact .pure ⟨some ⟨first, reached, item⟩,
      .took hfirst (hmoved ⟨item, rfl, trivial⟩) hend hrun rfl⟩

/-- A turn that takes an item. -/
theorem ends_itemTurn {attempt : Attempt β} {recover : Nat → Miss → Walk Bool}
    (hattempt : ∀ low, Advances source low attempt) (hrecover : Regains source recover)
    (found : List β) (start : Nat) (hle : start ≤ source.lexemes.length) :
    Ends (itemTurn attempt recover found) source start fun outcome stop =>
      ∃ taken, (items attempt recover).Turn source found start taken outcome stop := by
  refine (ends_skipWhile Token.isSeparator hle).bind fun _ first ⟨hfirst, hle, hseparator⟩ => ?_
  refine .bind_atEnd (.pure ⟨none, .ended⟩) fun hlt => .step (position_eq source first) ?_
  refine (hattempt first first (Nat.le_refl first) hle).with_run.bind
    fun result reached ⟨⟨_, hend, hmoved⟩, hrun⟩ => ?_
  cases result with
  | ok item =>
    exact .pure ⟨some ⟨first, reached, item⟩,
      .took hfirst (hmoved ⟨item, rfl, trivial⟩) hend hrun rfl⟩
  | error miss =>
    refine (hrecover first reached miss hlt hend hseparator).bind
      fun goesOn stop ⟨hend, hregains⟩ => ?_
    split
    · next hgoesOn => exact .pure ⟨none, .passed hfirst (hregains hgoesOn) hend hrun rfl⟩
    · exact .pure ⟨none, .ended⟩

/-- A name is taken as an element, with the markers behind it. -/
theorem element_of_name {first middle stop : Nat} {name : String} {markers : Option String}
    (hname : eatName source first = .ok (some name, middle))
    (hmarkers : acceptMarkers Token.isInlineTrivia source middle = .ok (markers, stop)) :
    element.run source first = .ok (.ok ⟨name, markers⟩, stop) := by
  have hexpect : expectName.run source first = .ok (.ok name, middle) :=
    bind_eq_ok.mpr ⟨(.ok (some name), middle), bind_eq_ok.mpr ⟨_, hname, rfl⟩, rfl⟩
  have haccept : (liftM (acceptMarkers Token.isInlineTrivia) : Attempt (Option String)).run source
      middle = .ok (.ok markers, stop) := bind_eq_ok.mpr ⟨_, hmarkers, rfl⟩
  exact bind_eq_ok.mpr ⟨_, hexpect, bind_eq_ok.mpr ⟨_, haccept, rfl⟩⟩

theorem element_of_none {first middle : Nat}
    (hname : eatName source first = .ok (none, middle)) :
    element.run source first = .ok (.error .noMatch, middle) := by
  have hexpect : expectName.run source first = .ok (.error .noMatch, middle) :=
    bind_eq_ok.mpr ⟨(.ok none, middle), bind_eq_ok.mpr ⟨_, hname, rfl⟩, rfl⟩
  exact bind_eq_ok.mpr ⟨_, hexpect, rfl⟩

/-- A turn that takes an element. -/
theorem ends_elementTurn (found : List ElementText) (start : Nat)
    (hle : start ≤ source.lexemes.length) :
    Ends (elementTurn found) source start fun outcome stop =>
      ∃ taken, elements.Turn source found start taken outcome stop := by
  refine (ends_skipWhile Token.isSeparator hle).bind fun _ first ⟨hfirst, hle, _⟩ => ?_
  refine .bind_atEnd (.pure ⟨none, .ended⟩) fun hlt => ?_
  refine (ends_eatName source first).with_run.bind
    fun name middle ⟨⟨hsome, hnone⟩, hname⟩ => ?_
  cases name with
  | some name =>
    obtain rfl := hsome rfl
    refine (within_acceptMarkers _ (first + 1) (Nat.le_refl _) hlt).with_run.bind
      fun markers stop ⟨⟨hstop, hend, _⟩, hmarkers⟩ => .pure ?_
    refine ⟨some ⟨first, stop, name, markers⟩, ?_⟩
    exact .took hfirst hstop hend (element_of_name hname hmarkers) rfl
  | none =>
    obtain rfl := hnone rfl
    refine (ends_bump hlt).bind fun _ stop ⟨_, hstop⟩ => .pure ⟨none, ?_⟩
    rw [hstop]
    exact .passed hfirst (Nat.lt_succ_self _) hlt (element_of_none hname) rfl

/-! ## All the loops -/

theorem progresses_declarations (kind : DeclarationKind) (source : Source) :
    (declarations kind).Progresses source := by
  refine progresses_of_turn rfl (ends_scanTurn fun low => ?_)
  cases kind with
  | fielded => exact advances_fielded
  | union => exact advances_union
  | scalar => exact advances_scalar
  | enum => exact advances_enum
  | directive => exact advances_directive

theorem progresses_fields (source : Source) : fields.Progresses source :=
  progresses_of_turn rfl
    (ends_itemTurn (fun _ => advances_described advances_field) regains_recoverField)

theorem progresses_arguments (source : Source) : arguments.Progresses source :=
  progresses_of_turn rfl
    (ends_itemTurn (fun _ => advances_described advances_argument) regains_recoverArgument)

theorem progresses_elements (source : Source) : elements.Progresses source :=
  progresses_of_turn rfl ends_elementTurn

end Loop

/-- **Scanning goes on.**  Over any source, in the loop of each scanner, a turn ends the loop or
starts the next one further right; so there is one turn more than tokens at most, and the items are
read from non-empty stretches of tokens, one behind the other.  These loops are the scanners: over a
text shorter than 4 GiB each ends with what the readers find in its tokens. -/
theorem scanning_loops_progress :
    (∀ source : Source, (∀ kind, (Loop.declarations kind).Progresses source) ∧
      Loop.fields.Progresses source ∧ Loop.arguments.Progresses source ∧
        Loop.elements.Progresses source) ∧
    ∀ text : String, text.utf8ByteSize < 2 ^ 32 →
      Source.read text.toList = .ok (Source.of text.toList) ∧
      (Source.of text.toList).run = Run.ofString text ∧
      (∀ kind : DeclarationKind, (Loop.declarations kind).walk.over text
        = .ok ((kind.declarations (Run.ofString text)).map (Described.map kind.texts))) ∧
      Loop.fields.walk.over text
        = .ok ((fieldLines (Run.ofString text)).map (Described.map FieldLine.texts)) ∧
      Loop.arguments.walk.over text
        = .ok ((argumentLines (Run.ofString text)).map (Described.map ArgumentLine.texts)) ∧
      Loop.elements.walk.over text = .ok ((elements (Run.ofString text)).map Element.texts) := by
  refine ⟨fun source => ⟨fun kind => Loop.progresses_declarations kind source,
    Loop.progresses_fields source, Loop.progresses_arguments source,
    Loop.progresses_elements source⟩, fun text hshort => ?_⟩
  have hrelexed := Relexed.ofString hshort
  have htext : (Run.ofString text).text = text := by
    rw [Run.text, Run.ofString, chars_tokenize, String.ofList_toList]
  have hread : Source.read text.toList = .ok (Source.of text.toList) :=
    Source.read_eq (by rwa [← Text.utf8ByteSize_ofList, String.ofList_toList])
  refine ⟨hread, Source.run_of _, fun kind => ?_, ?_, ?_, ?_⟩
  · have hscan := hrelexed.declarations_eq kind
    rwa [htext] at hscan
  · have hscan := hrelexed.fields_eq
    rwa [htext] at hscan
  · have hscan := hrelexed.arguments_eq
    rwa [htext] at hscan
  · have hscan := hrelexed.elements_eq
    rwa [htext] at hscan

/-- Two scalars, and between them braces the wrong way round, which are passed over. -/
theorem scanning_loops_progress_two_scalars :
    "scalar A\n\x7d\x7b\nscalar B".utf8ByteSize < 2 ^ 32 ∧
    (Loop.declarations .scalar).Progresses
      (Source.of "scalar A\n\x7d\x7b\nscalar B".toList) ∧
    (Loop.declarations .scalar).walk.over "scalar A\n\x7d\x7b\nscalar B"
      = .ok ((DeclarationKind.declarations .scalar
          (Run.ofString "scalar A\n\x7d\x7b\nscalar B")).map
            (Described.map ScalarDeclaration.texts)) ∧
    (DeclarationKind.declarations .scalar (Run.ofString "scalar A\n\x7d\x7b\nscalar B")).map
      (fun found => found.item.name) = ["A", "B"] := by
  have hshort : "scalar A\n\x7d\x7b\nscalar B".utf8ByteSize < 2 ^ 32 := by decide
  obtain ⟨hprogresses, hscans⟩ := scanning_loops_progress
  obtain ⟨-, -, hdeclarations, -⟩ := hscans _ hshort
  exact ⟨hshort, (hprogresses _).1 .scalar, hdeclarations .scalar, by decide +kernel⟩

end SdlSchema
