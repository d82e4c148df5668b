/-
# Walks go forward

A walk may go back only to a position that it kept, and it keeps none in front of where it started.
So wherever it ends, it has not fallen back behind its start nor run beyond the last token; and a
step that takes a token has left its start behind.  This holds over any source, also where a walk
ends in a fault.

* `Walk.Leads` : a walk stays between a position and the last token, and leaves the position behind
  if its result says so;
* `Walk.Within.turns` : a loop of such turns stays there too;
* `Walk.Takes` : the same from a position where a token is.
-/
import SdlSchema.Proofs.Cursor.Ends

namespace SdlSchema

variable {α β σ : Type} {source : Source} {start low : Nat}

namespace Walk

/-! ## Walks that go forward -/

/-- From anywhere behind `low` the walk ends behind `low` and not beyond the last token, and has
left `low` itself behind if its result tells that it moved. -/
def Leads (source : Source) (low : Nat) (walk : Walk α) (moved : α → Prop) : Prop :=
  ∀ start, low ≤ start → start ≤ source.lexemes.length →
    Ends walk source start fun a stop =>
      low ≤ stop ∧ stop ≤ source.lexemes.length ∧ (moved a → low < stop)

/-- From anywhere behind `low` the walk ends behind `low` and not beyond the last token. -/
abbrev Within (source : Source) (low : Nat) (walk : Walk α) : Prop :=
  Leads source low walk fun _ => False

/-- A walk that stays falls back behind nothing. -/
theorem Stays.within {walk : Walk α} (h : Stays walk) : Within source low walk := by
  intro start hlow hle
  refine (h source start).weaken fun _ stop hstop => ?_
  rw [hstop]
  exact ⟨hlow, hle, False.elim⟩

namespace Leads

variable {walk : Walk α} {next : α → Walk β} {moved : β → Prop} {before : α → Prop}

/-- A walk that leads stays between the position and the last token in any case. -/
theorem within (h : Leads source low walk before) : Within source low walk :=
  fun start hlow hle => (h start hlow hle).weaken fun _ _ hstop =>
    ⟨hstop.1, hstop.2.1, False.elim⟩

/-- A result that does not tell of a move needs none. -/
theorem pure {a : α} (h : ¬ before a) : Leads source low (Pure.pure a) before :=
  fun _ hlow hle => .pure ⟨hlow, hle, fun ha => absurd ha h⟩

/-- Behind a step that moved, the walk may do what it likes, as long as it does not fall back;
behind any other it has to move itself. -/
theorem bind (hwalk : Leads source low walk before)
    (hmoved : ∀ a, before a → Within source (low + 1) (next a))
    (hstill : ∀ a, ¬ before a → Leads source low (next a) moved) :
    Leads source low (walk >>= next) moved := by
  intro start hlow hle
  refine (hwalk start hlow hle).bind fun a middle hmiddle => ?_
  by_cases ha : before a
  · refine (hmoved a ha middle (hmiddle.2.2 ha) hmiddle.2.1).weaken fun b stop hstop => ?_
    exact ⟨by omega, hstop.2.1, fun _ => by omega⟩
  · exact hstill a ha middle hmiddle.1 hmiddle.2.1

theorem ite {condition : Prop} [Decidable condition] {other : Walk α}
    (hthen : Leads source low walk before) (helse : Leads source low other before) :
    Leads source low (if condition then walk else other) before := by
  split
  · exact hthen
  · exact helse

end Leads

namespace Within

variable {walk : Walk α} {next : α → Walk β} {moved : β → Prop}

/-- Behind a walk that may have stayed, the next has to move itself. -/
theorem bind (hwalk : Within source low walk) (hnext : ∀ a, Leads source low (next a) moved) :
    Leads source low (walk >>= next) moved :=
  Leads.bind hwalk (fun _ => False.elim) fun a _ => hnext a

/-- Each turn that goes on leaves its start behind, so the loop ends behind its own. -/
theorem turns {turn : σ → Walk (σ ⊕ β)} (state : σ)
    (hturn : ∀ state start, low ≤ start →
      Leads source start (turn state) fun outcome => outcome.isLeft = true) :
    Within source low (Walk.turns turn state) := by
  intro start hlow hle
  refine Ends.turns (fun _ position => low ≤ position) hlow hle fun state start hlow hle => ?_
  refine (hturn state start hlow start (Nat.le_refl start) hle).weaken fun outcome stop hstop => ?_
  cases outcome with
  | inl state => exact ⟨by omega, hstop.2.2 rfl, hstop.2.1⟩
  | inr result => exact ⟨by omega, hstop.2.1, False.elim⟩

end Within

/-- Behind a step that tells whether it moved. -/
theorem Leads.bind_ite {walk : Walk Bool} {yes no : Walk β} {moved : β → Prop}
    (hwalk : Leads source low walk fun found => found = true)
    (hyes : Within source (low + 1) yes) (hno : Leads source low no moved) :
    Leads source low (walk >>= fun found => if found then yes else no) moved := by
  refine hwalk.bind (fun found hfound => ?_) fun found hfound => ?_
  · rw [if_pos hfound]
    exact hyes
  · rw [if_neg hfound]
    exact hno

/-- Behind a step that has a result only if it moved. -/
theorem Leads.bind_option {walk : Walk (Option α)} {next : Option α → Walk β} {moved : β → Prop}
    (hwalk : Leads source low walk fun found => found.isSome = true)
    (hsome : ∀ a, Within source (low + 1) (next (some a)))
    (hnone : Leads source low (next none) moved) : Leads source low (walk >>= next) moved := by
  refine hwalk.bind (fun found hfound => ?_) fun found hfound => ?_
  · obtain ⟨a, rfl⟩ := Option.isSome_iff_exists.mp hfound
    exact hsome a
  · obtain rfl := Option.not_isSome_iff_eq_none.mp hfound
    exact hnone

/-- A position that is kept lies behind `low`. -/
theorem leads_position {next : Nat → Walk β} {moved : β → Prop}
    (hnext : ∀ save, low ≤ save → Leads source low (next save) moved) :
    Leads source low (position >>= next) moved := by
  intro start hlow hle
  exact .step (position_eq source start) (hnext start hlow start hlow hle)

/-- A walk may go back to a position that it kept. -/
theorem within_goTo {target : Nat} (h : low ≤ target) : Within source low (goTo target) := by
  intro start hlow hle
  exact .of_run rfl ⟨by omega, by omega, False.elim⟩

/-! ## Where a token is -/

/-- As a walk that leads, if it starts where a token is. -/
def Takes (source : Source) (low : Nat) (walk : Walk α) (moved : α → Prop) : Prop :=
  ∀ start, low ≤ start → start < source.lexemes.length →
    Ends walk source start fun a stop =>
      low ≤ stop ∧ stop ≤ source.lexemes.length ∧ (moved a → low < stop)

namespace Takes

variable {walk : Walk α} {next : α → Walk β} {moved : β → Prop} {before : α → Prop}

/-- A walk that leads from anywhere leads from where a token is. -/
theorem of_leads (h : Leads source low walk before) : Takes source low walk before :=
  fun start hlow hlt => h start hlow (Nat.le_of_lt hlt)

/-- Behind a token that was taken, nothing more has to move. -/
theorem bind (hwalk : Takes source low walk fun _ => True)
    (hnext : ∀ a, Within source (low + 1) (next a)) : Takes source low (walk >>= next) moved := by
  intro start hlow hlt
  refine (hwalk start hlow hlt).bind fun a middle ⟨_, hle, hmoved⟩ => ?_
  refine (hnext a middle (hmoved trivial) hle).weaken fun b stop hstop => ?_
  exact ⟨by omega, hstop.2.1, fun _ => by omega⟩

/-- Looking around first, the walk still starts where a token is. -/
theorem bind_stays (hwalk : Stays walk) (hnext : ∀ a, Takes source low (next a) moved) :
    Takes source low (walk >>= next) moved := by
  intro start hlow hlt
  refine (hwalk source start).bind fun a stop hstop => ?_
  rw [hstop]
  exact hnext a start hlow hlt

theorem ite {condition : Prop} [Decidable condition] {other : Walk α}
    (hthen : Takes source low walk before) (helse : Takes source low other before) :
    Takes source low (if condition then walk else other) before := by
  split
  · exact hthen
  · exact helse

end Takes

/-- To go past a token leaves it behind. -/
theorem takes_advance : Takes source low advance fun _ => True := by
  intro start hlow hlt
  exact .of_run rfl ⟨by omega, hlt, fun _ => by omega⟩

/-- If there is a next token, a walk that looks at it starts where a token is. -/
theorem leads_current {next : Option Lexeme → Walk β} {moved : β → Prop}
    (hnone : Leads source low (next none) moved)
    (hsome : ∀ lexeme, Takes source low (next (some lexeme)) moved) :
    Leads source low (current >>= next) moved := by
  intro start hlow hle
  refine .step (a := source.lexemes[start]?) rfl ?_
  cases hfound : source.lexemes[start]? with
  | none => exact hnone start hlow hle
  | some lexeme => exact hsome lexeme start hlow (List.getElem?_eq_some_iff.mp hfound).1

/-- Where the next token passes a test, the walk starts where a token is. -/
theorem leads_sees {test : Token → Bool} {yes no : Walk β} {moved : β → Prop}
    (hyes : Takes source low yes moved) (hno : Leads source low no moved) :
    Leads source low (sees test >>= fun found => if found then yes else no) moved := by
  intro start hlow hle
  exact .bind_sees (fun hlt => hyes start hlow hlt) fun _ => hno start hlow hle

/-- A walk that took a token has moved. -/
theorem leads_bump : Leads source low bump fun taken => taken.isSome = true := by
  refine leads_current (.pure (by simp)) fun lexeme => ?_
  exact takes_advance.bind fun _ => .pure not_false

/-- Where a token is, it is taken. -/
theorem ends_bump (hlt : start < source.lexemes.length) :
    Ends bump source start fun taken stop => taken.isSome = true ∧ stop = start + 1 := by
  refine .step (a := source.lexemes[start]?) rfl ?_
  rw [List.getElem?_eq_getElem hlt]
  exact .step rfl (.pure ⟨rfl, rfl⟩)

theorem takes_bump : Takes source low bump fun _ => True := by
  intro start hlow hlt
  refine (ends_bump hlt).weaken fun _ stop hstop => ?_
  exact ⟨by omega, by omega, fun _ => by omega⟩

/-! ## Steps -/

/-- A token of a kind is taken, or the walk stays and says so. -/
theorem leads_eat (kind : Kind) : Leads source low (eat kind) fun found => found = true :=
  leads_sees (takes_advance.bind fun _ => .pure not_false) (.pure (by simp))

/-- A name is taken, or the walk stays. -/
theorem ends_eatName (source : Source) (start : Nat) :
    Ends eatName source start fun name stop =>
      (name.isSome = true → stop = start + 1) ∧ (name = none → stop = start) := by
  refine .bind_sees (fun hlt => ?_) fun _ => .pure ⟨by simp, fun _ => rfl⟩
  refine (ends_bump hlt).bind fun taken stop ⟨htaken, hstop⟩ => .pure ⟨fun _ => hstop, ?_⟩
  obtain ⟨lexeme, rfl⟩ := Option.isSome_iff_exists.mp htaken
  simp

/-- A name is taken, or there is no result. -/
theorem leads_eatName : Leads source low eatName fun found => found.isSome = true :=
  leads_sees (takes_bump.bind fun _ => .pure not_false) (.pure (by simp))

/-- Passing over tokens may pass over none. -/
theorem within_skipWhile (test : Token → Bool) : Within source low (skipWhile test) :=
  Within.turns () fun _ _ _ =>
    leads_sees (takes_advance.bind fun _ => .pure not_false) (.pure (by simp))

/-- Passing over tokens ends in front of one that does not pass the test. -/
theorem ends_skipWhile (test : Token → Bool) (hle : start ≤ source.lexemes.length) :
    Ends (skipWhile test) source start fun _ stop =>
      start ≤ stop ∧ stop ≤ source.lexemes.length ∧
        source.lexemes[stop]?.any (fun lexeme => test lexeme.token) = false := by
  refine .turns (fun _ position => start ≤ position) (Nat.le_refl start) hle
    fun _ position hposition hle => .bind_sees (fun hlt => ?_) fun hnone => ?_
  · exact .step rfl (.pure ⟨by omega, Nat.lt_succ_self _, hlt⟩)
  · exact .pure ⟨hposition, hle, hnone⟩

theorem within_skipTrivia : Within source low skipTrivia := within_skipWhile _

theorem within_skipInline : Within source low skipInline := within_skipWhile _

/-- The quotes of a description are cut off without moving. -/
theorem within_description : Within source low description := by
  refine leads_sees (takes_bump.bind fun taken => ?_) (.pure not_false)
  cases taken with
  | none => exact .pure not_false
  | some lexeme =>
    exact (Stays.check (content_ne_endless _)).within.bind fun _ => .pure not_false

theorem within_acceptDescription : Within source low acceptDescription :=
  within_description.bind fun _ => within_skipTrivia.bind fun _ => .pure not_false

/-- The keyword in front of a declaration may be missing. -/
theorem within_acceptExtend : Within source low acceptExtend :=
  (leads_eat _).within.bind fun _ =>
    .ite (within_skipTrivia.bind fun _ => .pure not_false) (.pure not_false)

/-! ## Markers -/

/-- A turn that goes on has taken a marker. -/
theorem leads_markerTurn (skip : Token → Bool) (last : Nat) :
    Leads source low (markerTurn skip last) fun outcome => outcome.isLeft = true := by
  refine leads_position fun save hsave => (within_skipWhile skip).bind fun _ => leads_sees ?_ ?_
  · exact .bind_stays stays_position fun _ => takes_bump.bind fun _ => .pure not_false
  · exact (within_goTo hsave).bind fun _ => .pure (by simp)

/-- Markers are looked for behind what may be skipped; without one the walk goes back to where it
was. -/
theorem within_acceptMarkers (skip : Token → Bool) : Within source low (acceptMarkers skip) := by
  refine leads_position fun save hsave => (within_skipWhile skip).bind fun _ => ?_
  refine (stays_sees _).within.bind fun found => .ite ?_ ?_
  · refine stays_position.within.bind fun first => leads_bump.within.bind fun _ => ?_
    refine (Within.turns first fun last _ _ => leads_markerTurn skip last).bind fun last => ?_
    exact (stays_slice first last).within.bind fun text => .pure not_false
  · exact (within_goTo hsave).bind fun _ => .pure not_false

/-! ## References to types -/

/-- Behind a type the walk goes back to where it was, if no exclamation mark follows. -/
theorem within_nonNull : Within source low nonNull := by
  refine leads_position fun save hsave => within_skipInline.bind fun _ => ?_
  refine (leads_eat _).within.bind fun _ => .ite ?_ ?_
  · exact stays_lastTaken.within.bind fun _ => .pure not_false
  · exact (within_goTo hsave).bind fun _ => .pure not_false

theorem within_levelEnd : Within source low levelEnd :=
  stays_lastTaken.within.bind fun _ => within_nonNull.bind fun _ => .pure not_false

/-- Each list level opens with a bracket of its own, so the loop ends. -/
theorem within_openLists : Within source low openLists :=
  Within.turns 0 fun _ _ _ => (leads_eat _).bind_ite
    (within_skipInline.bind fun _ => .pure not_false) (.pure (by simp))

/-- The levels are closed in turn, as many as were opened. -/
theorem within_closeLists (depth last : Nat) : Within source low (closeLists depth last) := by
  induction depth generalizing last with
  | zero => exact .pure not_false
  | succ depth ih =>
    refine within_skipInline.bind fun _ => (leads_eat _).within.bind fun _ => .ite ?_ ?_
    · exact within_levelEnd.bind fun last => ih last
    · exact .pure not_false

/-- A reference to a type that does not read leaves the walk somewhere behind its start. -/
theorem within_typeReference : Within source low typeReference := by
  refine stays_position.within.bind fun first => within_openLists.bind fun depth => ?_
  refine leads_eatName.within.bind fun name => ?_
  cases name with
  | none => exact .pure not_false
  | some name =>
    refine within_levelEnd.bind fun last => (within_closeLists depth last).bind fun closed => ?_
    cases closed with
    | none => exact .pure not_false
    | some last => exact (stays_slice first last).within.bind fun _ => .pure not_false

/-! ## Brackets -/

/-- A turn that goes on has taken a token of the value. -/
theorem leads_valueTurn (depth : Nat) :
    Leads source low (valueTurn depth) fun outcome => outcome.isLeft = true := by
  have hstop : Takes source low (Pure.pure (.inr ()) : Walk (Nat ⊕ Unit))
      fun outcome => outcome.isLeft = true := .of_leads (.pure (by simp))
  refine leads_current (.pure (by simp)) fun lexeme => ?_
  refine .ite ?_ (.ite (.ite hstop ?_) (.ite hstop ?_))
  · exact takes_bump.bind fun _ => .pure not_false
  · exact .bind_stays (.check (less_ne_endless _ _)) fun _ =>
      takes_bump.bind fun _ => .pure not_false
  · exact takes_bump.bind fun _ => .pure not_false

/-- A default value is passed over token by token, or is not there. -/
theorem within_skipDefault : Within source low skipDefault :=
  (leads_eat _).within.bind fun _ =>
    .ite (Within.turns 0 fun depth _ _ => leads_valueTurn depth) (.pure not_false)

/-- A turn that goes on has taken a token of the body. -/
theorem leads_balancedTurn (bracket : Bracket) (depth : Nat) :
    Leads source low (balancedTurn bracket depth) fun outcome => outcome.isLeft = true := by
  refine leads_bump.bind_option (fun lexeme => ?_) (.pure (by simp))
  refine .ite (.pure not_false) (.ite (.ite (.pure not_false) ?_) (.pure not_false))
  exact (Stays.check (less_ne_endless _ _)).within.bind fun _ => .pure not_false

/-- A body is passed over token by token, up to its closer or the end of the text. -/
theorem within_balanced (bracket : Bracket) : Within source low (balanced bracket) :=
  Within.turns 0 fun depth _ _ => leads_balancedTurn bracket depth

end Walk

end SdlSchema
