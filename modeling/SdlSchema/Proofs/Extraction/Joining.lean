/-
# Joining documents

A document may stand in front of another, joined to it by a line break, if its braces are closed, it
ends with a block, and no block string goes across the line break.  Then the joined document
declares what the one declares and then what the other declares.  If the names are apart, the schema
does not depend on which of the two comes first.

* `JoinsBefore` : that a document may stand in front of another;
* `declarations_join` : what the joined document declares;
* `Extractor.extract_joined` : its declarations, and its schema in either order.
-/
import SdlSchema.Proofs.Extraction.Outcomes
import SdlSchema.Proofs.Lexing.Joining
import SdlSchema.Proofs.Scanning.Joining
import SdlSchema.Proofs.Schema.Equality

namespace SdlSchema

/-- The two texts with a line break between them. -/
def joined (first second : String) : String := first ++ "\n" ++ second

/-- The first text may stand in front of the second. -/
structure JoinsBefore (first second : String) : Prop where
  /-- Each opening brace of the first text has its closing brace in it. -/
  closed : Run.AllClosed .brace (Run.ofString first)
  /-- The last significant token of the first text, if there is any, is a closing brace. -/
  endsWithBlock : (Run.ofString first).EndsWithBlock
  /-- No block string covers the line break between the texts. -/
  uncrossed : ∀ token ∈ (Run.ofString (joined first second)).tokenAt? first.length,
    token.kind ≠ .blockString

theorem JoinsBefore.ofString_joined {first second : String} (h : JoinsBefore first second) :
    Run.ofString (joined first second)
      = Run.ofString first ++ Token.lineBreak :: Run.ofString second := by
  have htext : (joined first second).toList = first.toList ++ '\n' :: second.toList := by
    simp [joined]
  have huncrossed := h.uncrossed
  rw [Run.ofString, htext, ← String.length_toList] at huncrossed
  rw [Run.ofString, htext]
  exact tokenize_join huncrossed

/-- The joined document declares what the one declares and then what the other declares. -/
theorem declarations_join {first second : String} (h : JoinsBefore first second)
    (kind : DeclarationKind) :
    kind.declarations (Run.ofString (joined first second))
      = kind.declarations (Run.ofString first) ++ kind.declarations (Run.ofString second) := by
  rw [h.ofString_joined]
  exact scanFrom_join kind (Run.ofString second) true (fun hopen => hopen.not_allClosed h.closed)
    h.endsWithBlock

/-! ## Schemas -/

/-- That a document declares what one document declares and then what another declares. -/
def DeclaresBoth (document first second : Run) : Prop :=
  ∀ kind : DeclarationKind,
    kind.declarations document = kind.declarations first ++ kind.declarations second

/-- What is collected from both of two documents does not depend on which of them comes first. -/
theorem beq_collect_of_append {α β : Type} [Named β] [BEq β] [ReflBEq β] (items : α → List β)
    {first second before after : α} (hbefore : items before = items first ++ items second)
    (hafter : items after = items second ++ items first)
    (hapart : (NameIndex.collect (items first)).Apart (NameIndex.collect (items second))) :
    (NameIndex.collect (items before) == NameIndex.collect (items after)) = true := by
  rw [hbefore, hafter]
  exact NameIndex.beq_collect_append_comm hapart

theorem Schema.beq_iff (first second : Schema) : (first == second) = true ↔
    (first.objects == second.objects) = true ∧ (first.interfaces == second.interfaces) = true ∧
    (first.inputs == second.inputs) = true ∧ (first.unions == second.unions) = true ∧
    (first.enums == second.enums) = true ∧ (first.scalars == second.scalars) = true ∧
    (first.directives == second.directives) = true := by
  show (_ && (_ && (_ && (_ && (_ && (_ && _)))))) = true ↔ _
  simp only [Bool.and_eq_true]

namespace Extractor

variable (extractor : Extractor) {document first second : Run}

/-- The fielded types that declarations of them define. -/
theorem ofFieldedKind_append (kind : FieldedKind) (h : DeclaresBoth document first second) :
    ofFieldedKind kind (fieldedDeclarations document)
      = ofFieldedKind kind (fieldedDeclarations first)
        ++ ofFieldedKind kind (fieldedDeclarations second) := by
  have hjoin : fieldedDeclarations document
      = fieldedDeclarations first ++ fieldedDeclarations second := h .fielded
  rw [hjoin, ofFieldedKind, List.filter_append]
  rfl

/-- The directive definitions of a document come from what its declarations define. -/
theorem directives_eq_ok {index : NameIndex DirectiveDefinition} :
    extractor.directives document = .ok index ↔
      ∃ found, (directiveDeclarations document).mapM extractor.directive? = .ok found ∧
        index = NameIndex.collect (found.filterMap id) := by
  rw [directives, bind_eq_ok]
  constructor
  · rintro ⟨found, hfound, heq⟩
    cases heq
    exact ⟨found, hfound, rfl⟩
  · rintro ⟨found, hfound, rfl⟩
    exact ⟨found, hfound, rfl⟩

theorem directives_append {left right : List (Option DirectiveDefinition)}
    (h : DeclaresBoth document first second)
    (hleft : (directiveDeclarations first).mapM extractor.directive? = .ok left)
    (hright : (directiveDeclarations second).mapM extractor.directive? = .ok right) :
    extractor.directives document
      = .ok (NameIndex.collect (left.filterMap id ++ right.filterMap id)) := by
  have hjoin : directiveDeclarations document
      = directiveDeclarations first ++ directiveDeclarations second := h .directive
  rw [directives_eq_ok]
  refine ⟨left ++ right, ?_, by rw [List.filterMap_append]⟩
  rw [hjoin, List.mapM_append, hleft, hright]
  rfl

/-- Of two documents that declare the same two documents in either order, the schemas are equal, if
the names of the two are apart. -/
theorem extractInTurn_comm {before after : Run} (hbefore : DeclaresBoth before first second)
    (hafter : DeclaresBoth after second first) {left right : Schema}
    (hleft : extractor.extractInTurn first = .ok left)
    (hright : extractor.extractInTurn second = .ok right) (hapart : left.Apart right) :
    ∃ one other, extractor.extractInTurn before = .ok one ∧
      extractor.extractInTurn after = .ok other ∧ (one == other) = true := by
  obtain ⟨_, hdirectives, rfl⟩ := extractor.extractInTurn_eq_ok.mp hleft
  obtain ⟨_, hdirectives', rfl⟩ := extractor.extractInTurn_eq_ok.mp hright
  obtain ⟨found, hfound, rfl⟩ := extractor.directives_eq_ok.mp hdirectives
  obtain ⟨found', hfound', rfl⟩ := extractor.directives_eq_ok.mp hdirectives'
  refine ⟨_, _, extractor.extractInTurn_eq_ok.mpr
      ⟨_, extractor.directives_append hbefore hfound hfound', rfl⟩,
    extractor.extractInTurn_eq_ok.mpr
      ⟨_, extractor.directives_append hafter hfound' hfound, rfl⟩, ?_⟩
  -- an index compares equal in either order, so each kind of declaration may be split on its own
  rw [Schema.beq_iff]
  have hmap : ∀ {α β : Type} {list left right : List α} (f : α → β), list = left ++ right →
      list.map f = left.map f ++ right.map f := by
    rintro α β list left right f rfl
    exact List.map_append
  refine ⟨?_, ?_, ?_, ?_, ?_, ?_, ?_⟩
  · exact beq_collect_of_append
      (fun document => (ofFieldedKind .object (fieldedDeclarations document)).map extractor.object)
      (hmap _ (ofFieldedKind_append _ hbefore)) (hmap _ (ofFieldedKind_append _ hafter))
      hapart.objects
  · exact beq_collect_of_append
      (fun document =>
        (ofFieldedKind .interface (fieldedDeclarations document)).map extractor.interface)
      (hmap _ (ofFieldedKind_append _ hbefore)) (hmap _ (ofFieldedKind_append _ hafter))
      hapart.interfaces
  · exact beq_collect_of_append
      (fun document => (ofFieldedKind .input (fieldedDeclarations document)).map extractor.input)
      (hmap _ (ofFieldedKind_append _ hbefore)) (hmap _ (ofFieldedKind_append _ hafter))
      hapart.inputs
  · exact beq_collect_of_append (fun document => (unionDeclarations document).map extractor.union)
      (hmap _ (hbefore .union)) (hmap _ (hafter .union)) hapart.unions
  · -- enumerations without a value are left out on both sides alike
    have happend : ∀ {document first second : Run}, DeclaresBoth document first second →
        (enumDeclarations document).filterMap extractor.enum?
          = (enumDeclarations first).filterMap extractor.enum?
            ++ (enumDeclarations second).filterMap extractor.enum? := by
      intro document first second h
      have hjoin : enumDeclarations document
          = enumDeclarations first ++ enumDeclarations second := h .enum
      rw [hjoin, List.filterMap_append]
    exact beq_collect_of_append
      (fun document => (enumDeclarations document).filterMap extractor.enum?)
      (happend hbefore) (happend hafter) hapart.enums
  · exact beq_collect_of_append (fun document => (scalarDeclarations document).map extractor.scalar)
      (hmap _ (hbefore .scalar)) (hmap _ (hafter .scalar)) hapart.scalars
  · exact NameIndex.beq_collect_append_comm hapart.directives

/-- **A document may be joined to another.**  Where its braces are closed, it ends with a block and
no block string goes across the line break, a scan for any kind of declaration finds in the joined
document what it finds in the one and then what it finds in the other.  If either may stand in front
of the other, both have a schema, and the schemas have no name in common among the definitions of
one kind, then the joined document has the same schema in either order. -/
theorem extract_joined {first second : String} (h : JoinsBefore first second) :
    (∀ kind : DeclarationKind, kind.declarations (Run.ofString (joined first second))
      = kind.declarations (Run.ofString first) ++ kind.declarations (Run.ofString second)) ∧
    (JoinsBefore second first → ∀ (extractor : Extractor) (left right : Schema),
      extractor.extract first = .ok left → extractor.extract second = .ok right →
      left.Apart right →
      ∃ one other, extractor.extract (joined first second) = .ok one ∧
        extractor.extract (joined second first) = .ok other ∧ (one == other) = true) := by
  refine ⟨declarations_join h, ?_⟩
  intro h' extractor left right hleft hright hapart
  rw [extract_parallel] at hleft hright
  obtain ⟨one, other, hone, hother, heq⟩ := extractor.extractInTurn_comm (declarations_join h)
    (declarations_join h') hleft hright hapart
  exact ⟨one, other, by rw [extract_parallel, hone], by rw [extract_parallel, hother], heq⟩

/-- Two documents, one with a list that breaks off in front of a block, joined in either order. -/
theorem extract_joined_broken : ∃ one other,
    extract ⟨.empty, {}⟩ (joined "type A \x7b a: B \x7d union U = A | \x7b \x7d # x"
      "\"\"\"d\"\"\" enum E \x7b V \x7d") = .ok one ∧
    extract ⟨.empty, {}⟩ (joined "\"\"\"d\"\"\" enum E \x7b V \x7d"
      "type A \x7b a: B \x7d union U = A | \x7b \x7d # x") = .ok other ∧
    (one == other) = true := by
  have hjoins : JoinsBefore "type A \x7b a: B \x7d union U = A | \x7b \x7d # x"
      "\"\"\"d\"\"\" enum E \x7b V \x7d" :=
    ⟨by decide +kernel, by decide +kernel, by decide +kernel⟩
  have hjoins' : JoinsBefore "\"\"\"d\"\"\" enum E \x7b V \x7d"
      "type A \x7b a: B \x7d union U = A | \x7b \x7d # x" :=
    ⟨by decide +kernel, by decide +kernel, by decide +kernel⟩
  have hapart : (match extract ⟨.empty, {}⟩ "type A \x7b a: B \x7d union U = A | \x7b \x7d # x",
      extract ⟨.empty, {}⟩ "\"\"\"d\"\"\" enum E \x7b V \x7d" with
    | .ok left, .ok right => decide (left.Apart right)
    | _, _ => false) = true := by decide +kernel
  split at hapart
  · next left right hleft hright =>
    exact (extract_joined hjoins).2 hjoins' _ left right hleft hright (of_decide_eq_true hapart)
  · cases hapart

end Extractor

end SdlSchema
