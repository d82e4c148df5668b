/-
# Recovery from line to line

What does not read as a field is passed over up to the next line break, and what does not read as an
argument up to the next comma or line break.  Only a default value, a description and arguments in
parentheses can go over such an end.  If each line nests its own brackets and does not end with a
description, none of them does: then a body is read line by line, and what is wrong in one line
changes nothing in the others.

* `Run.SelfContained` : nested brackets, and nothing described behind the line;
* `Reader.IsLocal.items_append` : a line is read apart from what stands behind it;
* `fields_and_arguments_by_line` : fields line by line, arguments item by item, of any text.
-/
import Mathlib.Data.List.Basic
import SdlSchema.Proofs.Reading.ItemEnds
import SdlSchema.Proofs.Lexing.Relexing

namespace SdlSchema

/-- Whether an item ends in front of the token. -/
def Token.endsItem (token : Token) : Bool := token.isNewline || token.isMark .comma

/-- What ends an item separates it from others. -/
theorem Token.isSeparator_of_endsItem {token : Token} (h : token.endsItem = true) :
    token.isSeparator = true := by
  rcases Bool.or_eq_true_iff.mp h with hnewline | hcomma
  · exact isSeparator_of_isNewline hnewline
  · exact Bool.or_eq_true_iff.mpr (.inr hcomma)

/-! ## Lines that keep to themselves -/

namespace Run

/-- The tokens of a run that are no trivia. -/
def significant (run : Run) : Run := run.filter fun token => !token.isTrivia

/-- The run nests its brackets, and its last significant token describes nothing behind it. -/
structure SelfContained (run : Run) : Prop where
  wellNested : run.WellNested
  last_plain : ∀ last ∈ run.significant.getLast?, last.isDescription = false

theorem selfContained_iff (run : Run) : run.SelfContained ↔
    run.WellNested ∧ ∀ last ∈ run.significant.getLast?, last.isDescription = false :=
  ⟨fun h => ⟨h.wellNested, h.last_plain⟩, fun h => ⟨h.1, h.2⟩⟩

instance (run : Run) : Decidable run.SelfContained :=
  decidable_of_iff' _ (selfContained_iff run)

variable {run rest behind : Run} {token : Token}

theorem SelfContained.of_closesOver (h : run.SelfContained) (hrest : ClosesOver rest run) :
    rest.SelfContained := by
  refine ⟨hrest.wellNested h.wellNested, fun last hlast => h.last_plain last ?_⟩
  obtain ⟨front, rfl, -⟩ := hrest
  rw [significant, Option.mem_def] at hlast
  rw [significant, List.filter_append, List.getLast?_append, hlast]
  rfl

theorem SelfContained.dropWhile_isSeparator (h : run.SelfContained) :
    SelfContained (run.dropWhile Token.isSeparator) :=
  h.of_closesOver
    (OpensNone.dropWhile (fun _ => Token.opensBracket_of_isSeparator) run).closesOver

/-- Something significant stands behind a description. -/
theorem SelfContained.acceptDescription_append (h : SelfContained (token :: run))
    (htoken : token.isTrivia = false) (behind : Run) :
    acceptDescription (token :: (run ++ behind))
      = onto behind (acceptDescription (token :: run)) := by
  cases hdescription : token.isDescription with
  | false =>
    rw [acceptDescription_of_significant hdescription htoken,
      acceptDescription_of_significant hdescription htoken]
    rfl
  | true =>
    have hsome : run.skipTrivia.isEmpty = false := by
      rw [Bool.eq_false_iff, ne_eq, List.isEmpty_iff, skipTrivia, List.dropWhile_eq_nil_iff]
      intro htrivia
      have hlast : token ∈ (significant (token :: run)).getLast? := by
        rw [significant, List.filter_cons_of_pos (by simp [htoken]),
          List.filter_eq_nil_iff.mpr fun other hmem => by simp [htrivia other hmem]]
        rfl
      simp [h.last_plain token hlast] at hdescription
    rw [acceptDescription_of_isDescription hdescription,
      acceptDescription_of_isDescription hdescription, skipTrivia, List.dropWhile_append]
    exact congrArg (some token.content, ·) (if_neg (by rw [← skipTrivia, hsome]; simp))

/-! ## Passing over -/

section PassingOver

variable {ends : Token → Bool}

/-- What is not read is passed over up to the next end. -/
theorem dropWhile_not_ends (hfree : ∀ token ∈ run, ends token = false)
    (hbehind : ∀ token ∈ behind.head?, ends token = true) :
    List.dropWhile (fun token => !ends token) (run ++ behind) = behind := by
  have hpassed : Gap (fun token => !ends token) run := fun token hmem => by simp [hfree token hmem]
  exact hpassed.dropWhile_of_head? fun token hmem => by simp [hbehind token hmem]

/-- Where no end follows, all that is not read is passed over. -/
theorem dropWhile_not_ends_eq_nil (hfree : ∀ token ∈ run, ends token = false) :
    List.dropWhile (fun token => !ends token) run = [] := by
  have h : List.dropWhile (fun token => !ends token) (run ++ []) = [] :=
    dropWhile_not_ends hfree nofun
  rwa [List.append_nil] at h

end PassingOver

end Run

namespace Reader.IsLocal

variable {α : Type} {reader : Reader α} {ends : Token → Bool} {run rest line behind : Run}
  {token : Token} {found : Described α}

/-! ## Descriptions -/

theorem described_read_append (h : reader.IsLocal) (hrun : Run.SelfContained (token :: run))
    (htoken : token.isTrivia = false) (hend : behind.atItemEnd = true) :
    reader.described.read (token :: (run ++ behind))
      = (reader.described.read (token :: run)).map (Run.onto behind) := by
  have hnested := (OpensNone.acceptDescription (token :: run)).closesOver.wellNested
    hrun.wellNested
  simp only [Reader.described, hrun.acceptDescription_append htoken behind, Run.onto]
  exact bind_eq_map (h.read_append hnested hend) fun _ _ => rfl

theorem described_ne_exhausted (h : reader.IsLocal) (hrun : run.WellNested) :
    reader.described.read run ≠ .error .exhausted := by
  rw [ne_eq, described_read_error_iff]
  exact h.ne_exhausted ((OpensNone.acceptDescription run).closesOver.wellNested hrun)

theorem described_closesOver (h : reader.IsLocal)
    (hread : reader.described.read run = .ok (found, rest)) : ClosesOver rest run :=
  (h.closesOver (described_read_eq_ok.mp hread).2).trans
    (OpensNone.acceptDescription run).closesOver

/-! ## Lines apart -/

/-- What stands behind a line is read as if the line were not there, and the line as if nothing
were behind it. -/
theorem items_append (h : reader.IsLocal)
    (hends : ∀ token, ends token = true → token.endsItem = true)
    (hline : line.SelfContained) (hfree : ∀ token ∈ line, ends token = false)
    (hbehind : ∀ token ∈ behind.head?, ends token = true) :
    reader.described.items Token.isSeparator ends (line ++ behind)
      = reader.described.items Token.isSeparator ends line
        ++ reader.described.items Token.isSeparator ends behind := by
  have hend : behind.atItemEnd = true := by
    cases behind with
    | nil => rfl
    | cons token behind => exact hends token (hbehind token rfl)
  induction hlength : line.length using Nat.strongRecOn generalizing line with
  | _ n ih =>
    rw [Abridgement.items_eq, List.dropWhile_append]
    cases hskip : line.dropWhile Token.isSeparator with
    | nil =>
      have hnone : reader.described.items Token.isSeparator ends line = [] :=
        (items_congr hskip).trans items_nil
      rw [hnone, List.nil_append, Abridgement.items_eq]
      rfl
    | cons token tail =>
      have hstart : Run.SelfContained (token :: tail) := hskip ▸ hline.dropWhile_isSeparator
      have hstop : token.isSeparator = false := by
        simpa [hskip] using List.head?_dropWhile_not Token.isSeparator line
      have hread := h.described_read_append hstart (Bool.or_eq_false_iff.mp hstop).1 hend
      have hsuffix : token :: tail <:+ line := hskip ▸ List.dropWhile_suffix _
      rw [Abridgement.items_eq _ _ _ line, hskip]
      dsimp only [List.isEmpty_cons, Bool.false_eq_true, if_false, List.cons_append]
      rw [if_neg Bool.false_ne_true]
      dsimp only
      rw [hread]
      cases hfound : reader.described.read (token :: tail) with
      | ok read =>
        -- the item ends in the line, and what is left of the line is shorter
        obtain ⟨item, rest⟩ := read
        have hleft := reader.described.left hfound
        have hlt : rest.length < line.length :=
          Nat.lt_of_lt_of_le hleft.length_lt hsuffix.length_le
        exact congrArg (item :: ·) <| ih _ (hlength ▸ hlt)
          (hstart.of_closesOver (h.described_closesOver hfound))
          (fun other hmem => hfree other (hsuffix.subset (hleft.suffix.subset hmem))) rfl
      | error miss =>
        cases miss with
        | exhausted => exact absurd hfound (h.described_ne_exhausted hstart.wellNested)
        | noMatch =>
          -- the rest of the line is passed over, and no more
          have htail : ∀ other ∈ tail, ends other = false :=
            fun other hmem => hfree other (hsuffix.subset (List.mem_cons_of_mem _ hmem))
          dsimp only [Except.map]
          rw [Run.dropWhile_not_ends htail hbehind, Run.dropWhile_not_ends_eq_nil htail, items_nil,
            List.nil_append]

end Reader.IsLocal

/-! ## Pieces between the ends -/

section Pieces

variable {ends : Token → Bool} {run piece : Run}

/-- A run is one piece, or its first piece ends with a token that ends pieces. -/
theorem splitOnP_cases (ends : Token → Bool) (run : Run) :
    ((∀ token ∈ run, ends token = false) ∧ run.splitOnP ends = [run]) ∨
      ∃ (piece : Run) (last : Token) (rest : Run), run = piece ++ last :: rest ∧
        (∀ token ∈ piece, ends token = false) ∧ ends last = true ∧
        run.splitOnP ends = piece :: rest.splitOnP ends := by
  cases hfind : run.find? ends with
  | none =>
    have hfree : ∀ token ∈ run, ends token = false := by
      simpa using List.find?_eq_none.mp hfind
    exact .inl ⟨hfree, List.splitOnP_eq_singleton hfree⟩
  | some last =>
    obtain ⟨hlast, piece, rest, rfl, hpiece⟩ := List.find?_eq_some_iff_append.mp hfind
    have hfree : ∀ token ∈ piece, ends token = false := by simpa using hpiece
    exact .inr ⟨piece, last, rest, rfl, hfree, hlast,
      List.splitOnP_append_cons_of_forall_mem hfree last hlast rest⟩

/-- A piece is a stretch of the run without a token that ends pieces. -/
theorem of_mem_splitOnP (h : piece ∈ run.splitOnP ends) :
    piece <:+: run ∧ ∀ token ∈ piece, ends token = false := by
  induction hlength : run.length using Nat.strongRecOn generalizing run with
  | _ n ih =>
    rcases splitOnP_cases ends run with
      ⟨hfree, hsplit⟩ | ⟨first, last, rest, rfl, hfree, -, hsplit⟩
    · obtain rfl := List.mem_singleton.mp (hsplit ▸ h)
      exact ⟨List.infix_refl _, hfree⟩
    · rcases List.mem_cons.mp (hsplit ▸ h) with rfl | hrest
      · exact ⟨(List.prefix_append _ _).isInfix, hfree⟩
      · obtain ⟨hwithin, hnone⟩ := ih rest.length (by simp [← hlength]; omega) hrest rfl
        have hsuffix : rest <:+ first ++ last :: rest :=
          (List.suffix_cons last rest).trans (List.suffix_append first _)
        exact ⟨hwithin.trans hsuffix.isInfix, hnone⟩

namespace Reader

variable {α : Type} {reader : Reader α}

/-- The items of a run are those of its pieces, one piece after the other. -/
theorem IsLocal.items_splitOnP (h : reader.IsLocal)
    (hends : ∀ token, ends token = true → token.endsItem = true)
    (hpieces : ∀ piece ∈ run.splitOnP ends, Run.SelfContained piece) :
    reader.described.items Token.isSeparator ends run
      = (run.splitOnP ends).flatMap (reader.described.items Token.isSeparator ends) := by
  induction hlength : run.length using Nat.strongRecOn generalizing run with
  | _ n ih =>
    rcases splitOnP_cases ends run with
      ⟨-, hsplit⟩ | ⟨piece, last, rest, rfl, hfree, hlast, hsplit⟩
    · rw [hsplit, List.flatMap_singleton]
    · rw [hsplit, List.forall_mem_cons] at hpieces
      have hskip : (last :: rest).dropWhile Token.isSeparator = rest.dropWhile Token.isSeparator :=
        List.dropWhile_cons_of_pos (Token.isSeparator_of_endsItem (hends last hlast))
      have hbehind : ∀ token ∈ (last :: rest).head?, ends token = true := by
        simpa using hlast
      have hlt : rest.length < n := by
        rw [← hlength, List.length_append, List.length_cons]
        omega
      rw [hsplit, List.flatMap_cons, h.items_append hends hpieces.1 hfree hbehind,
        items_congr hskip, ih _ hlt hpieces.2 rfl]

/-- In a run without a line break or a comma at most one item is read. -/
theorem IsLocal.length_items_le_one (h : reader.IsLocal)
    (hfree : ∀ token ∈ run, token.endsItem = false) :
    (reader.described.items Token.isSeparator Token.endsItem run).length ≤ 1 := by
  rw [Abridgement.items_eq]
  cases hskip : run.dropWhile Token.isSeparator with
  | nil => exact Nat.zero_le 1
  | cons token tail =>
    have hsuffix : token :: tail <:+ run := hskip ▸ List.dropWhile_suffix _
    dsimp only
    cases hfound : reader.described.read (token :: tail) with
    | ok read =>
      obtain ⟨item, rest⟩ := read
      have hleft := (reader.described.left hfound).suffix.trans hsuffix
      -- an item is read up to its end, which can only be the end of the run
      have hnil : rest = [] := by
        have hend := h.atItemEnd (described_read_eq_ok.mp hfound).2
        cases rest with
        | nil => rfl
        | cons next rest =>
          exact absurd hend (Bool.eq_false_iff.mp (hfree next (hleft.subset List.mem_cons_self)))
      subst hnil
      dsimp only
      rw [items_nil]
      exact Nat.le_refl 1
    | error miss =>
      cases miss with
      | exhausted => exact Nat.zero_le 1
      | noMatch =>
        have htail : ∀ other ∈ tail, other.endsItem = false :=
          fun other hmem => hfree other (hsuffix.subset (List.mem_cons_of_mem _ hmem))
        dsimp only
        rw [Run.dropWhile_not_ends_eq_nil htail, items_nil]
        exact Nat.zero_le 1

end Reader

end Pieces

/-! ## Texts -/

/-- If each line of a body nests its own brackets and does not end with a string, its fields are
those of its lines, each line read alone; and if so does each item of a text of arguments, between
commas and line breaks, its arguments are those of its items, of which each gives one at most. -/
theorem fields_and_arguments_by_line (text : List Char) :
    ((∀ line ∈ (tokenize text).splitOnP Token.isNewline, Run.SelfContained line) →
      fieldLines (tokenize text) = ((tokenize text).splitOnP Token.isNewline).flatMap
        fun line => fieldLines (tokenize (Run.chars line))) ∧
    ((∀ item ∈ (tokenize text).splitOnP Token.endsItem,
        Run.SelfContained item) →
      argumentLines (tokenize text)
        = ((tokenize text).splitOnP Token.endsItem).flatMap
          fun item => argumentLines (tokenize (Run.chars item))) ∧
    ∀ item ∈ (tokenize text).splitOnP Token.endsItem,
      (argumentLines (tokenize (Run.chars item))).length ≤ 1 := by
  -- a piece read alone is cut into the same tokens as in the text
  have halone : ∀ {ends : Token → Bool}, ∀ piece ∈ (tokenize text).splitOnP ends,
      tokenize (Run.chars piece) = piece :=
    fun piece hmem => tokenize_chars_of_isInfix (of_mem_splitOnP hmem).1
  refine ⟨fun hlines => ?_, fun hitems => ?_, fun item hmem => ?_⟩
  · have hends : ∀ token : Token, token.isNewline = true → token.endsItem = true :=
      fun token hnewline => Bool.or_eq_true_iff.mpr (.inl hnewline)
    refine (FieldLine.isLocal_reader.items_splitOnP hends hlines).trans ?_
    refine List.flatMap_congr fun line hmem => ?_
    rw [halone line hmem, fieldLines]
  · refine (ArgumentLine.isLocal_reader.items_splitOnP (fun _ => id) hitems).trans ?_
    refine List.flatMap_congr fun item hmem => ?_
    rw [halone item hmem]
    rfl
  · rw [halone item hmem]
    exact ArgumentLine.isLocal_reader.length_items_le_one (of_mem_splitOnP hmem).2

/-- Arguments and default values may hold commas and brackets; the second line is no field, and the
second item no argument. -/
theorem fields_and_arguments_by_line_malformed :
    fieldLines (tokenize "id: ID!\noops (1) =\n\"A\" f(a: T, b: T): [T] = [1, 2] %0".toList)
      = fieldLines (tokenize "id: ID!".toList) ++ fieldLines (tokenize "oops (1) =".toList)
        ++ fieldLines (tokenize "\"A\" f(a: T, b: T): [T] = [1, 2] %0".toList) ∧
    argumentLines (tokenize "a: [T!] = \x7b\x7d, b = [(c)]\n\"A\" d: T %1".toList)
      = argumentLines (tokenize "a: [T!] = \x7b\x7d".toList)
        ++ argumentLines (tokenize " b = [(c)]".toList)
        ++ argumentLines (tokenize "\"A\" d: T %1".toList) := by
  have hlines := (fields_and_arguments_by_line
    "id: ID!\noops (1) =\n\"A\" f(a: T, b: T): [T] = [1, 2] %0".toList).1 (by decide +kernel)
  have hitems := (fields_and_arguments_by_line
    "a: [T!] = \x7b\x7d, b = [(c)]\n\"A\" d: T %1".toList).2.1 (by decide +kernel)
  have hlinesAlone :
      ((tokenize "id: ID!\noops (1) =\n\"A\" f(a: T, b: T): [T] = [1, 2] %0".toList).splitOnP
        Token.isNewline).map (fun line => tokenize (Run.chars line))
      = [tokenize "id: ID!".toList, tokenize "oops (1) =".toList,
        tokenize "\"A\" f(a: T, b: T): [T] = [1, 2] %0".toList] := by decide +kernel
  have hitemsAlone : ((tokenize "a: [T!] = \x7b\x7d, b = [(c)]\n\"A\" d: T %1".toList).splitOnP
        Token.endsItem).map (fun item => tokenize (Run.chars item))
      = [tokenize "a: [T!] = \x7b\x7d".toList, tokenize " b = [(c)]".toList,
        tokenize "\"A\" d: T %1".toList] := by decide +kernel
  rw [← List.flatMap_map, hlinesAlone] at hlines
  rw [← List.flatMap_map, hitemsAlone] at hitems
  simp only [List.flatMap_cons, List.flatMap_nil, List.append_nil, ← List.append_assoc]
    at hlines hitems
  exact ⟨hlines, hitems⟩

end SdlSchema
