/-
# Documents one after the other

Where every brace of a document is closed and a closing brace is its last significant token, no
attempt to read a declaration in it gets past its end: each attempt meets the closing brace first.
So behind the line break that follows the document a scan goes on as it does at the start of one.

* `whole` : the abridgement that leaves everything;
* `scanFrom_join` : a scan of two documents joined by a line break.
-/
import SdlSchema.Proofs.Abridging.Attempts
import SdlSchema.Proofs.Lexing.Spelling

namespace SdlSchema

/-! ## Leaving everything -/

/-- The abridgement that leaves everything. -/
def Abridgement.whole : Abridgement where
  token? := some
  content := id
  isInlineTrivia_of_eq_none h := by cases h
  kind_eq h := by cases h; rfl
  text_eq h _ := by cases h; rfl
  content_eq h _ := by cases h; rfl

namespace Abridgement

@[simp] theorem part_whole (run : Run) : whole.part run = run := List.filterMap_some

/-- Leaving everything of a run in front of another is putting the two together. -/
theorem onto_whole (behind run : Run) : whole.onto behind run = run ++ behind := by
  rw [onto, part_whole]

theorem element_whole (element : Element) : whole.element element = element := by
  rw [Abridgement.element, part_whole]

theorem nameList_whole (list : NameList) : whole.nameList list = list := by
  rw [nameList, part_whole, List.map_congr_left fun element _ => element_whole element,
    List.map_id']

/-- All of a declaration of any kind is left. -/
theorem declaration_whole (kind : DeclarationKind) (found : kind.Declaration) :
    whole.declaration kind found = found := by
  cases kind with
  | fielded =>
    obtain ⟨⟨isExtended, name, markers⟩, kind, interfaces, body⟩ := found
    simp only [declaration, heading, part_whole]
    rw [Option.map_congr fun list _ => nameList_whole list, Option.map_id']
  | union =>
    simp only [declaration, heading, part_whole, nameList_whole]
    rfl
  | scalar =>
    simp only [declaration, heading, part_whole]
    rfl
  | enum =>
    simp only [declaration, heading, part_whole]
    rfl
  | directive =>
    simp only [declaration, nameList_whole]
    rfl

/-- All of a declaration is left with its description. -/
theorem described_whole (kind : DeclarationKind) :
    whole.described (whole.declaration kind) = id := by
  funext found
  obtain ⟨description, item⟩ := found
  rw [described, declaration_whole]
  cases description <;> rfl

end Abridgement

/-! ## The end of a document -/

/-- A closing brace is the last significant token, if there is any. -/
def Run.EndsWithBlock (run : Run) : Prop :=
  ∀ token ∈ (run.filter fun token => !token.isTrivia).getLast?, token.isMark .rightBrace = true

instance (run : Run) : Decidable run.EndsWithBlock :=
  inferInstanceAs (Decidable (∀ token ∈ (run.filter fun token => !token.isTrivia).getLast?,
    token.isMark .rightBrace = true))

namespace Run

/-- The rest of a document that ends with a block ends with one too. -/
theorem EndsWithBlock.of_suffix {run rest : Run} (h : run.EndsWithBlock) (hrest : rest <:+ run) :
    rest.EndsWithBlock := by
  obtain ⟨front, rfl⟩ := hrest
  intro token hmem
  apply h token
  rw [List.filter_append, List.getLast?_append]
  rw [Option.mem_def] at hmem ⊢
  rw [hmem]
  rfl

/-- Reading stops in front of what is behind a document that ends with a block. -/
theorem EndsWithBlock.stopsBefore {run : Run} (h : run.EndsWithBlock)
    (hclosed : ¬ HoldsOpenBrace run) {token : Token} (hmem : token ∈ run)
    (htoken : token.isTrivia = false) (behind : Run) : run.StopsBefore behind := by
  have hsignificant : token ∈ run.filter fun token => !token.isTrivia :=
    List.mem_filter.mpr ⟨hmem, by rw [htoken]; rfl⟩
  obtain ⟨last, hlast⟩ := Option.isSome_iff_exists.mp
    (List.getLast?_isSome.mpr (List.ne_nil_of_mem hsignificant))
  refine Or.inr ⟨⟨last, ?_, h last hlast⟩, hclosed⟩
  exact (List.mem_filter.mp (List.mem_of_getLast? hlast)).1

end Run

/-- A brace that stays open is not closed. -/
theorem HoldsOpenBrace.not_allClosed {run : Run} (h : HoldsOpenBrace run) :
    ¬ Run.AllClosed .brace run := by
  obtain ⟨front, opener, tail, rfl, hopener, hnone⟩ := h
  exact fun hclosed => hclosed.not_unclosed _ (Run.unclosed_of_balanced_eq_none hopener hnone)

/-- An attempt that the text was too short for began in front of a brace that is never closed. -/
theorem DeclarationKind.holdsOpenBrace_of_attempt {kind : DeclarationKind} {lineStart : Bool}
    {token : Token} {tail : Run}
    (h : kind.reader.attempt lineStart token tail = .error .exhausted) :
    HoldsOpenBrace (token :: tail) := by
  unfold Reader.attempt at h
  split at h
  · rcases bind_eq_error.mp h with h | ⟨found, -, h⟩
    · exact (kind.isDeclaration_reader.exhausted h).of_suffix (Run.acceptDescription_suffix _)
    · cases h
  · cases h

/-! ## Scans -/

/-- An attempt in a document goes the same way with something behind the document. -/
theorem attempt_join (kind : DeclarationKind) {token : Token} {tail behind : Run}
    (hstops : Run.StopsBefore (token :: tail) behind) (htoken : token.isTrivia = false)
    (lineStart : Bool) :
    kind.reader.attempt lineStart token (tail ++ behind)
      = (kind.reader.attempt lineStart token tail).map (Prod.map id (· ++ behind)) := by
  have hcarries :=
    Abridgement.whole.carries_reader behind (fun body => Text.allBlank body.chars) kind
  simp only [Abridgement.part_whole, ← DeclarationKind.reader_eq] at hcarries
  have hattempt := Abridgement.whole.attempt_onto hcarries hstops htoken rfl lineStart
  rw [Abridgement.described_whole] at hattempt
  have honto : Abridgement.whole.onto behind = (· ++ behind) :=
    funext (Abridgement.onto_whole behind)
  rw [honto] at hattempt
  exact hattempt

/-- So does the step over a token or a block. -/
theorem stepOver_join {token : Token} {tail : Run} (hclosed : ¬ HoldsOpenBrace (token :: tail))
    (behind : Run) :
    (Run.stepOver true token (tail ++ behind)).2
      = ((Run.stepOver true token tail).2.1 ++ behind, true) ∧
    (Run.stepOver true token tail).2.2 = true := by
  have hopener : token.isMark .leftBrace = true → tail.balanced .brace 0 ≠ none :=
    fun hopener hnone => hclosed ⟨[], token, tail, rfl, hopener, hnone⟩
  have hclosable : (Run.stepOver true token tail).2.2 = true := by
    rcases Run.stepOver_cases true token tail with
      ⟨-, -, body, closer, rest, -, -, -, hstep⟩ | ⟨-, hmark, hnone, -⟩ | ⟨-, hstep⟩
    · rw [hstep]
    · exact absurd hnone (hopener hmark)
    · rw [hstep]
  have hstep := Abridgement.whole.stepOver_onto behind tail rfl true (Or.inr hopener)
  rw [Abridgement.onto_whole] at hstep
  refine ⟨?_, hclosable⟩
  rw [hstep, Prod.map, Abridgement.onto_whole, hclosable]
  rfl

/-- A scan of two documents joined by a line break finds what it finds in the one, and then what it
finds in the other. -/
theorem scanFrom_join (kind : DeclarationKind) {run : Run} (rest : Run) (lineStart : Bool)
    (hclosed : ¬ HoldsOpenBrace run) (hend : run.EndsWithBlock) :
    kind.reader.scanFrom lineStart true (run ++ Token.lineBreak :: rest)
      = kind.reader.scanFrom lineStart true run ++ kind.reader.scanFrom true true rest := by
  induction hlength : run.length using Nat.strongRecOn generalizing run lineStart with
  | _ n ih =>
    -- what is left behind any step is again a document that ends with a block
    have hnext : ∀ left lineStart, left <:+ run → left.length < run.length →
        kind.reader.scanFrom lineStart true (left ++ Token.lineBreak :: rest)
          = kind.reader.scanFrom lineStart true left ++ kind.reader.scanFrom true true rest :=
      fun left lineStart hsuffix hlt => ih _ (hlength ▸ hlt) lineStart
        (fun h => hclosed (h.of_suffix hsuffix)) (hend.of_suffix hsuffix) rfl
    cases run with
    | nil => rw [List.nil_append, Reader.scanFrom_trivia rfl, Reader.scanFrom_nil]; rfl
    | cons token tail =>
      rw [List.cons_append]
      cases htoken : token.isTrivia with
      | true =>
        rw [Reader.scanFrom_trivia htoken, Reader.scanFrom_trivia htoken,
          hnext tail _ (List.suffix_cons token tail) (Nat.lt_succ_self _)]
      | false =>
        have hstops := hend.stopsBefore hclosed List.mem_cons_self htoken (Token.lineBreak :: rest)
        rw [Reader.scanFrom_significant htoken, Reader.scanFrom_significant htoken,
          attempt_join kind hstops htoken]
        cases hread : kind.reader.attempt lineStart token tail with
        | ok found =>
          obtain ⟨item, left⟩ := found
          have hleft := Reader.attempt_left hread
          simp only [Except.map, Prod.map, id, List.cons_append]
          rw [hnext left false hleft.suffix hleft.length_lt]
        | error miss =>
          cases miss with
          | exhausted =>
            -- the text would have ended inside a block
            exact absurd (kind.holdsOpenBrace_of_attempt hread) hclosed
          | noMatch =>
            obtain ⟨hstep, hclosable⟩ := stepOver_join hclosed (Token.lineBreak :: rest)
            have hsuffix := Run.stepOver_suffix true token tail
            simp only [Except.map, hstep, hclosable]
            exact hnext _ false (hsuffix.trans (List.suffix_cons token tail))
              (Nat.lt_succ_of_le hsuffix.length_le)

end SdlSchema
