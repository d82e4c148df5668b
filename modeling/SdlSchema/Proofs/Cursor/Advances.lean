/-
# Attempts go forward

An attempt is a walk that may miss.  Wherever it ends, with a result or with a miss, it has not
fallen back behind its start nor run beyond the last token; and what reads a line, a declaration or
an item of a list has left its start behind, unless it missed.

* `Attempt.Leads` : an attempt stays between a position and the last token, and leaves the position
  behind if it does not miss and its result says so;
* `Attempt.Advances` : an attempt leaves its start behind, unless it misses;
* `Attempt.advances_attemptHere` : so does what a scan tries at a position.
-/
import SdlSchema.Proofs.Cursor.Progress

namespace SdlSchema

variable {α β σ : Type} {source : Source} {start low : Nat}

namespace Attempt

open Walk

/-- As a walk that leads; a miss does not tell that it moved. -/
def Leads (source : Source) (low : Nat) (attempt : Attempt α) (moved : α → Prop) : Prop :=
  Walk.Leads source low attempt.run fun result => ∃ a, result = .ok a ∧ moved a

/-- As a walk that stays between a position and the last token. -/
abbrev Within (source : Source) (low : Nat) (attempt : Attempt α) : Prop :=
  Leads source low attempt fun _ => False

/-- The attempt leaves its start behind, unless it misses. -/
abbrev Advances (source : Source) (low : Nat) (attempt : Attempt α) : Prop :=
  Leads source low attempt fun _ => True

/-- A walk that cannot miss goes in front. -/
theorem run_lift_bind (walk : Walk α) (next : α → Attempt β) :
    (liftM walk >>= next : Attempt β).run = walk >>= fun a => (next a).run := by
  funext source start
  show ((walk source start >>= _) >>= _) = (walk source start >>= _)
  cases walk source start <;> rfl

namespace Leads

variable {attempt : Attempt α} {next : α → Attempt β} {moved : β → Prop} {before : α → Prop}
  {walk : Walk α}

/-- An attempt is a walk, and stays where that does. -/
theorem within_of_run (h : Walk.Within source low attempt.run) : Within source low attempt :=
  fun start hlow hle => (h start hlow hle).weaken fun _ _ hstop =>
    ⟨hstop.1, hstop.2.1, fun ⟨_, _, hfalse⟩ => False.elim hfalse⟩

theorem within (h : Leads source low attempt before) : Within source low attempt :=
  within_of_run (Walk.Leads.within h)

/-- A result that does not tell of a move needs none. -/
theorem pure {a : α} (h : ¬ before a) : Leads source low (Pure.pure a) before :=
  Walk.Leads.pure fun ⟨_, hresult, ha⟩ => h (Except.ok.inj hresult ▸ ha)

/-- A miss may come anywhere. -/
theorem throw (miss : Miss) : Leads source low (throw miss) before :=
  Walk.Leads.pure fun ⟨_, hresult, _⟩ => nomatch hresult

/-- Behind a step that moved, the attempt may not fall back; behind any other it has to move itself.
A miss ends it. -/
theorem bind (hattempt : Leads source low attempt before)
    (hmoved : ∀ a, before a → Within source (low + 1) (next a))
    (hstill : ∀ a, ¬ before a → Leads source low (next a) moved) :
    Leads source low (attempt >>= next) moved := by
  refine Walk.Leads.bind hattempt (fun result hresult => ?_) fun result hresult => ?_
  · obtain ⟨a, rfl, ha⟩ := hresult
    exact Walk.Leads.within (hmoved a ha)
  · cases result with
    | ok a => exact hstill a fun ha => hresult ⟨a, rfl, ha⟩
    | error miss => exact throw miss

theorem ite {condition : Prop} [Decidable condition] {other : Attempt α}
    (hthen : Leads source low attempt before) (helse : Leads source low other before) :
    Leads source low (if condition then attempt else other) before := by
  split
  · exact hthen
  · exact helse

/-- A walk that cannot miss leads as it did. -/
theorem of_walk (h : Walk.Leads source low walk before) :
    Leads source low (liftM walk : Attempt α) before := by
  intro start hlow hle
  refine ((h start hlow hle).bind fun a stop hstop => .pure ?_ : Walk.Ends (walk >>= _) _ _ _)
  exact ⟨hstop.1, hstop.2.1, fun ⟨_, hresult, ha⟩ => hstop.2.2 (Except.ok.inj hresult ▸ ha)⟩

end Leads

variable {attempt : Attempt α} {next : α → Attempt β} {moved : β → Prop}

/-- Behind an attempt that may have stayed, the next has to move itself. -/
theorem Within.bind (hattempt : Within source low attempt)
    (hnext : ∀ a, Leads source low (next a) moved) : Leads source low (attempt >>= next) moved :=
  Leads.bind hattempt (fun _ => False.elim) fun a _ => hnext a

/-- Behind an attempt that has left its start, the next has only not to fall back. -/
theorem Advances.bind (hattempt : Advances source low attempt)
    (hnext : ∀ a, Within source (low + 1) (next a)) : Leads source low (attempt >>= next) moved :=
  Leads.bind hattempt (fun a _ => hnext a) fun _ hfalse => absurd trivial hfalse

/-- A walk that does not fall back goes in front. -/
theorem leads_lift {walk : Walk α} (hwalk : Walk.Within source low walk)
    (hnext : ∀ a, Leads source low (next a) moved) :
    Leads source low (liftM walk >>= next) moved :=
  Within.bind (.of_walk hwalk) hnext

/-- Behind a step that tells whether it moved. -/
theorem Leads.bind_ite {walk : Walk Bool} {yes no : Attempt β}
    (hwalk : Walk.Leads source low walk fun found => found = true)
    (hyes : Within source (low + 1) yes) (hno : Leads source low no moved) :
    Leads source low (liftM walk >>= fun found => if found then yes else no) moved := by
  rw [Leads, run_lift_bind]
  exact Walk.Leads.bind_ite hwalk (Walk.Leads.within hyes) hno

/-- Behind a step that has a result only if it moved. -/
theorem Leads.bind_option {walk : Walk (Option α)} {next : Option α → Attempt β}
    (hwalk : Walk.Leads source low walk fun found => found.isSome = true)
    (hsome : ∀ a, Within source (low + 1) (next (some a)))
    (hnone : Leads source low (next none) moved) :
    Leads source low (liftM walk >>= next) moved := by
  rw [Leads, run_lift_bind]
  exact hwalk.bind_option (fun a => Walk.Leads.within (hsome a)) hnone

/-- A position that is kept lies behind the start. -/
theorem leads_position {next : Nat → Attempt β}
    (hnext : ∀ save, low ≤ save → Leads source low (next save) moved) :
    Leads source low (liftM Walk.position >>= next) moved := by
  rw [Leads, run_lift_bind]
  exact Walk.leads_position hnext

/-- A loop whose turns leave their starts behind ends behind its own. -/
theorem within_turns {turn : σ → Attempt (σ ⊕ β)} (state : σ)
    (hturn : ∀ state low, Leads source low (turn state) fun outcome => outcome.isLeft = true) :
    Within source low (turns turn state) := by
  refine Leads.within_of_run (Walk.Within.turns state fun state start _ => ?_)
  refine Walk.Leads.bind (hturn state start) (fun result hresult => ?_) fun result hresult => ?_
  · obtain ⟨outcome, rfl, houtcome⟩ := hresult
    cases outcome with
    | inl state => exact .pure not_false
    | inr result => cases houtcome
  · rcases result with miss | state | result
    · exact .pure (by simp)
    · exact absurd ⟨.inl state, rfl, rfl⟩ hresult
    · exact .pure (by simp)

/-- What is expected is taken, or it is a miss. -/
theorem advances_expect (kind : Kind) : Advances source low (expect kind) :=
  Leads.bind_ite (leads_eat kind) (.pure not_false) (.throw _)

theorem advances_expectName : Advances source low expectName :=
  Leads.bind_option leads_eatName (fun _ => .pure not_false) (.throw _)

/-! ## Lists -/

theorem within_itemMarkers (hasMarkers : Bool) : Walk.Within source low (itemMarkers hasMarkers) :=
  .ite (within_acceptMarkers _) (.pure not_false)

/-- An item of a list begins with its name. -/
theorem advances_listItem (hasMarkers : Bool) : Advances source low (listItem hasMarkers) :=
  advances_expectName.bind fun _ => leads_lift (within_itemMarkers hasMarkers) fun _ =>
    .of_walk stays_lastTaken.within

/-- Behind a mark that joins, the list goes on within what is left. -/
theorem within_joined (hasMarkers : Bool) :
    Within source low (do
      skipTrivia
      let last ← listItem hasMarkers
      pure (.inl last) : Attempt (Nat ⊕ Nat)) :=
  leads_lift within_skipTrivia fun _ => (advances_listItem hasMarkers).within.bind fun _ =>
    .pure not_false

/-- A turn that goes on has taken a mark that joins. -/
theorem leads_pipeTurn (hasMarkers : Bool) (last : Nat) :
    Leads source low (pipeTurn hasMarkers last) fun outcome => outcome.isLeft = true := by
  refine leads_position fun save hsave => leads_lift within_skipTrivia fun _ => ?_
  refine Leads.bind_ite (leads_eat _) (within_joined hasMarkers) ?_
  exact leads_lift (within_goTo hsave) fun _ => .pure (by simp)

/-- Either mark that joins interfaces is taken. -/
theorem leads_eatJoiner : Walk.Leads source low eatJoiner fun found => found = true :=
  (leads_eat _).bind_ite (.pure not_false) (leads_eat _)

/-- A turn that goes on has taken a mark that joins, or a name. -/
theorem leads_interfaceTurn (last : Nat) :
    Leads source low (interfaceTurn last) fun outcome => outcome.isLeft = true := by
  refine leads_position fun save hsave => leads_lift within_skipTrivia fun _ => ?_
  refine Leads.bind_ite leads_eatJoiner (within_joined false) ?_
  refine leads_lift (within_goTo hsave) fun _ => leads_lift within_skipInline fun _ => ?_
  refine Leads.bind_option leads_eatName (fun _ => ?_) ?_
  · exact leads_lift stays_lastTaken.within fun _ => .pure not_false
  · exact leads_lift (within_goTo hsave) fun _ => .pure (by simp)

/-- A list ends if each turn that goes on moves; the slice of its text does not move. -/
theorem within_nameList (lead : Punctuation) (hasMarkers : Bool)
    {turn : Nat → Attempt (Nat ⊕ Nat)}
    (hturn : ∀ last low, Leads source low (turn last) fun outcome => outcome.isLeft = true) :
    Within source low (nameList lead (listItem hasMarkers) turn) := by
  refine leads_lift stays_position.within fun first => leads_lift ?_ fun _ => ?_
  · exact (leads_eat _).within.bind fun _ => .ite within_skipTrivia (.pure not_false)
  · refine (advances_listItem hasMarkers).within.bind fun last => ?_
    exact (within_turns last hturn).bind fun last => .of_walk (stays_slice first last).within

/-- Members and places are joined by pipes. -/
theorem within_members : Within source low members :=
  within_nameList _ _ fun last _ => leads_pipeTurn true last

theorem within_locations : Within source low locations :=
  within_nameList _ _ fun last _ => leads_pipeTurn false last

/-- Interfaces are joined by either of two marks, or by none. -/
theorem within_interfaces : Within source low interfaces :=
  within_nameList _ _ fun last _ => leads_interfaceTurn last

/-! ## Lines -/

/-- A body ends at its closer; without one the text is exhausted. -/
theorem within_body (bracket : Bracket) (opened : Lexeme) :
    Within source low (body bracket opened) := by
  refine leads_lift Walk.leads_bump.within fun _ => ?_
  refine leads_lift (Walk.within_balanced bracket) fun closed => ?_
  cases closed with
  | none => exact .throw _
  | some closed => exact .of_walk (stays_textBetween opened closed).within

/-- A block without an opener is a miss. -/
theorem within_block (bracket : Bracket) : Within source low (block bracket) := by
  refine leads_lift (Walk.stays_opener bracket).within fun opened => ?_
  cases opened with
  | none => exact .throw _
  | some opened => exact within_body bracket opened

theorem within_expectType : Within source low expectType := by
  refine leads_lift Walk.within_typeReference fun type => ?_
  cases type with
  | none => exact .throw _
  | some type => exact .pure not_false

/-- From its colon to the end of its line or item, all of a line but its name is within what is
left. -/
theorem within_typedTail : Within source low typedTail :=
  (advances_expect _).within.bind fun _ =>
  leads_lift within_skipInline fun _ =>
  within_expectType.bind fun _ =>
  leads_lift within_skipInline fun _ =>
  leads_lift Walk.within_skipDefault fun _ =>
  leads_lift (within_acceptMarkers _) fun _ =>
  leads_lift within_skipInline fun _ =>
  leads_lift (stays_atEndOf _).within fun _ => .ite (.pure not_false) (.throw _)

/-- An argument begins with its name. -/
theorem advances_argument : Advances source low argument :=
  advances_expectName.bind fun _ => leads_lift within_skipInline fun _ =>
    within_typedTail.bind fun _ => .pure not_false

/-- The arguments of a field may be missing. -/
theorem within_arguments : Within source low arguments := by
  refine leads_lift (Walk.stays_opener .paren).within fun opened => ?_
  cases opened with
  | none => exact .pure not_false
  | some opened =>
    exact (within_body .paren opened).bind fun _ => leads_lift within_skipInline fun _ =>
      .pure not_false

/-- A field begins with its name. -/
theorem advances_field : Advances source low field :=
  advances_expectName.bind fun _ => leads_lift within_skipInline fun _ =>
    within_arguments.bind fun _ => within_typedTail.bind fun _ => .pure not_false

/-! ## Declarations -/

/-- The kind of a fielded type is a keyword, which is taken. -/
theorem advances_fieldedKind : Advances source low fieldedKind := by
  rw [fieldedKind, Advances, Leads, run_lift_bind]
  refine Walk.leads_current (Leads.throw _) fun lexeme => ?_
  rw [Option.bind_some]
  cases FieldedKind.ofKind? lexeme.token.kind with
  | none => exact .of_leads (Leads.throw _)
  | some kind =>
    show Takes source low (ExceptT.run (liftM bump >>= fun _ => Pure.pure kind)) _
    rw [run_lift_bind]
    exact takes_bump.bind fun _ => .pure not_false

/-- The interfaces of an object may be missing. -/
theorem within_implemented : Within source low implemented :=
  leads_lift (leads_eat _).within fun _ =>
    .ite (leads_lift within_skipTrivia fun _ => within_interfaces.bind fun _ => .pure not_false)
      (.pure not_false)

/-- A declaration with fields is left behind with the keyword of its kind. -/
theorem advances_fielded : Advances source low fielded :=
  leads_lift within_acceptExtend fun _ =>
  advances_fieldedKind.bind fun _ =>
  leads_lift within_skipTrivia fun _ =>
  advances_expectName.within.bind fun _ =>
  leads_lift within_skipTrivia fun _ =>
  within_implemented.bind fun _ =>
  leads_lift (within_acceptMarkers _) fun _ =>
  leads_lift within_skipTrivia fun _ =>
  (within_block _).bind fun _ => .ite (.throw _) (.pure not_false)

/-- Every other declaration is left behind with its keyword too; `extend` may stand in front of it.
-/
theorem advances_enum : Advances source low enum :=
  leads_lift within_acceptExtend fun _ =>
  (advances_expect _).bind fun _ =>
  leads_lift within_skipTrivia fun _ =>
  advances_expectName.within.bind fun _ =>
  leads_lift (within_acceptMarkers _) fun _ =>
  leads_lift within_skipTrivia fun _ =>
  (within_block _).bind fun _ => .pure not_false

theorem advances_union : Advances source low union :=
  leads_lift within_acceptExtend fun _ =>
  (advances_expect _).bind fun _ =>
  leads_lift within_skipTrivia fun _ =>
  advances_expectName.within.bind fun _ =>
  leads_lift (within_acceptMarkers _) fun _ =>
  leads_lift within_skipTrivia fun _ =>
  (advances_expect _).within.bind fun _ =>
  leads_lift within_skipTrivia fun _ =>
  within_members.bind fun _ => .pure not_false

/-- A scalar has nothing to read behind its markers but the end of the line. -/
theorem advances_scalar : Advances source low scalar :=
  leads_lift within_acceptExtend fun _ =>
  (advances_expect _).bind fun _ =>
  leads_lift within_skipTrivia fun _ =>
  advances_expectName.within.bind fun _ =>
  leads_lift (within_acceptMarkers _) fun _ =>
  leads_lift within_skipInline fun _ =>
  leads_lift (stays_atEndOf _).within fun _ => .ite (.pure not_false) (.throw _)

/-- The marker of a directive definition is taken, or it is a miss. -/
theorem within_expectMarker : Within source low expectMarker := by
  refine leads_lift stays_current.within fun next => ?_
  split
  · exact leads_lift leads_bump.within fun _ => .pure not_false
  · exact .throw _

/-- A directive definition cannot be extended, and begins with its keyword. -/
theorem advances_directive : Advances source low directive :=
  (advances_expect _).bind fun _ =>
  leads_lift within_skipInline fun _ =>
  within_expectMarker.bind fun _ =>
  leads_lift within_skipTrivia fun _ =>
  leads_lift (leads_eat _).within fun _ =>
  leads_lift within_skipTrivia fun _ =>
  (advances_expect _).within.bind fun _ =>
  leads_lift within_skipTrivia fun _ =>
  within_locations.bind fun _ => .pure not_false

/-! ## With descriptions -/

/-- A description in front may be missing; it is no reason to move less. -/
theorem advances_described {attempt : Attempt α} (h : Advances source low attempt) :
    Advances source low (described attempt) :=
  leads_lift within_acceptDescription fun _ => h.bind fun _ => .pure not_false

/-- What a scan tries at a position leaves that position behind, unless it misses. -/
theorem advances_attemptHere {attempt : Attempt α} (h : Advances source low attempt) :
    Advances source low (attemptHere attempt) :=
  leads_lift within_acceptDescription fun found =>
  leads_lift (stays_mayBegin found).within fun _ =>
    .ite (h.bind fun _ => .pure not_false) (.throw _)

end Attempt

end SdlSchema
