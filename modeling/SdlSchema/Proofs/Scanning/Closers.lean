/-
# The closer that counting finds

Any two kinds of token can be taken for opening and closing brackets.  Counting goes up at an opener
and down at a closer, and stops at the closer where it cannot go down: the first token up to which
one closer more than openers was seen.  A stack, on which each closer is matched with the opener
that was put there last, matches this closer with an opener right in front of where counting began.

* `closerIndex?_eq_some_iff`, `closerIndex?_eq_none_iff` : what counting finds;
* `mem_matched_iff` : what the stack finds;
* `balanced_eq_map_closerIndex?`, `pairs_eq_matched` : brackets of one kind.
-/
import Mathlib.Data.Nat.Find
import SdlSchema.Proofs.Scanning.Matching

namespace SdlSchema.Run

variable {opens closes : Kind} {depth index : Nat} {token : Token} {run : Run}

/-! ## Counting -/

/-- The index of the closer that leaves `depth` inner brackets and the outer one closed. -/
def closerIndex? (opens closes : Kind) : Nat → Run → Option Nat
  | _, [] => none
  | depth, token :: rest =>
    if token.kind == opens then (closerIndex? opens closes (depth + 1) rest).map (· + 1)
    else if token.kind == closes then
      if depth = 0 then some 0 else (closerIndex? opens closes (depth - 1) rest).map (· + 1)
    else (closerIndex? opens closes depth rest).map (· + 1)

/-- How often a kind of token occurs in a run. -/
def occurrences (kind : Kind) (run : Run) : Nat := run.countP fun token => token.kind == kind

theorem occurrences_cons (kind : Kind) (token : Token) (run : Run) :
    occurrences kind (token :: run)
      = occurrences kind run + if token.kind == kind then 1 else 0 := List.countP_cons

/-- Up to the token at the index, it included, there is one closer more than openers, where `depth`
openers in front of the run count too. -/
def ClosesOneMore (opens closes : Kind) (depth : Nat) (run : Run) (index : Nat) : Prop :=
  index < run.length ∧ occurrences closes (run.take (index + 1))
    = occurrences opens (run.take (index + 1)) + depth + 1

/-- The first token up to which there is one closer more than openers. -/
structure IsFirstCloser (opens closes : Kind) (depth : Nat) (run : Run) (index : Nat) : Prop where
  found : ClosesOneMore opens closes depth run index
  first : ∀ earlier < index, ¬ ClosesOneMore opens closes depth run earlier

theorem not_closesOneMore_nil : ¬ ClosesOneMore opens closes depth [] index :=
  fun h => Nat.not_lt_zero _ h.1

theorem closesOneMore_cons_zero (hne : opens ≠ closes) :
    ClosesOneMore opens closes depth (token :: run) 0 ↔ token.kind = closes ∧ depth = 0 := by
  rw [ClosesOneMore, List.take_succ_cons, List.take_zero, occurrences_cons, occurrences_cons]
  by_cases hcloses : token.kind = closes
  · have hopens : token.kind ≠ opens := fun h => hne (h.symm.trans hcloses)
    rw [if_pos (beq_iff_eq.mpr hcloses), if_neg (by simpa using hopens)]
    simp [occurrences, hcloses]
  · rw [if_neg (by simpa using hcloses)]
    simp [occurrences, hcloses]

/-- Behind a token the count goes on as deep as that token leaves it. -/
theorem closesOneMore_cons_succ {inner : Nat}
    (hinner : inner + (if token.kind == closes then 1 else 0)
      = depth + if token.kind == opens then 1 else 0) :
    ClosesOneMore opens closes depth (token :: run) (index + 1)
      ↔ ClosesOneMore opens closes inner run index := by
  rw [ClosesOneMore, ClosesOneMore, List.take_succ_cons, occurrences_cons, occurrences_cons,
    List.length_cons, Nat.succ_lt_succ_iff]
  refine and_congr_right fun _ => ?_
  omega

theorem isFirstCloser_cons_succ {inner : Nat} (hne : opens ≠ closes)
    (hzero : ¬ (token.kind = closes ∧ depth = 0))
    (hinner : inner + (if token.kind == closes then 1 else 0)
      = depth + if token.kind == opens then 1 else 0) :
    (∃ earlier, IsFirstCloser opens closes inner run earlier ∧ earlier + 1 = index)
      ↔ IsFirstCloser opens closes depth (token :: run) index := by
  cases index with
  | zero =>
    refine ⟨fun ⟨earlier, _, h⟩ => absurd h (Nat.succ_ne_zero earlier), fun h => ?_⟩
    exact absurd ((closesOneMore_cons_zero hne).mp h.found) hzero
  | succ index =>
    simp only [Nat.add_right_cancel_iff, exists_eq_right]
    constructor
    · rintro ⟨hcloses, hfirst⟩
      refine ⟨(closesOneMore_cons_succ hinner).mpr hcloses, fun earlier hlt => ?_⟩
      cases earlier with
      | zero => rwa [closesOneMore_cons_zero hne]
      | succ earlier =>
        rw [closesOneMore_cons_succ hinner]
        exact hfirst earlier (Nat.lt_of_succ_lt_succ hlt)
    · rintro ⟨hcloses, hfirst⟩
      refine ⟨(closesOneMore_cons_succ hinner).mp hcloses, fun earlier hlt h => ?_⟩
      exact hfirst (earlier + 1) (Nat.succ_lt_succ hlt) ((closesOneMore_cons_succ hinner).mpr h)

/-- Counting finds the first token up to which there is one closer more than openers. -/
theorem closerIndex?_eq_some_iff (hne : opens ≠ closes) :
    closerIndex? opens closes depth run = some index
      ↔ IsFirstCloser opens closes depth run index := by
  induction run generalizing depth index with
  | nil => exact ⟨nofun, fun h => absurd h.found not_closesOneMore_nil⟩
  | cons token run ih =>
    rw [closerIndex?]
    by_cases hopens : token.kind = opens
    · have hcloses : token.kind ≠ closes := fun h => hne (hopens.symm.trans h)
      rw [if_pos (beq_iff_eq.mpr hopens), Option.map_eq_some_iff]
      simp only [ih]
      exact isFirstCloser_cons_succ hne (fun h => hcloses h.1) (by simp [hopens, hne])
    · rw [if_neg (by simpa using hopens)]
      by_cases hcloses : token.kind = closes
      · rw [if_pos (beq_iff_eq.mpr hcloses)]
        by_cases hzero : depth = 0
        · -- the very first token is the closer, and nothing comes before it
          have hfirst : ClosesOneMore opens closes depth (token :: run) 0 :=
            (closesOneMore_cons_zero hne).mpr ⟨hcloses, hzero⟩
          rw [if_pos hzero, Option.some.injEq]
          constructor
          · rintro rfl
            exact ⟨hfirst, fun earlier hlt => absurd hlt (Nat.not_lt_zero _)⟩
          · intro h
            refine (Nat.eq_zero_or_pos index).elim Eq.symm fun hpos => ?_
            exact absurd hfirst (h.first 0 hpos)
        · rw [if_neg hzero, Option.map_eq_some_iff]
          simp only [ih]
          exact isFirstCloser_cons_succ hne (fun h => hzero h.2)
            (by simp [hcloses, hne.symm]; omega)
      · rw [if_neg (by simpa using hcloses), Option.map_eq_some_iff]
        simp only [ih]
        exact isFirstCloser_cons_succ hne (fun h => hcloses h.1) (by simp [hopens, hcloses])

/-- Where there is a token up to which one closer more was seen, there is a first one. -/
theorem ClosesOneMore.exists_isFirstCloser (h : ClosesOneMore opens closes depth run index) :
    ∃ first, IsFirstCloser opens closes depth run first := by
  classical
  exact ⟨Nat.find ⟨index, h⟩, Nat.find_spec ⟨index, h⟩, fun _ hlt => Nat.find_min ⟨index, h⟩ hlt⟩

theorem closerIndex?_eq_none_iff (hne : opens ≠ closes) :
    closerIndex? opens closes depth run = none
      ↔ ∀ index, ¬ ClosesOneMore opens closes depth run index := by
  rw [Option.eq_none_iff_forall_ne_some]
  constructor
  · intro h index hcloses
    obtain ⟨first, hfirst⟩ := hcloses.exists_isFirstCloser
    exact h first ((closerIndex?_eq_some_iff hne).mpr hfirst)
  · exact fun h index hsome => h index ((closerIndex?_eq_some_iff hne).mp hsome).found

/-- What counting finds is a closer. -/
theorem exists_getElem?_of_closerIndex? (h : closerIndex? opens closes depth run = some index) :
    ∃ closer, run[index]? = some closer ∧ closer.kind = closes := by
  induction run generalizing depth index with
  | nil => cases h
  | cons token run ih =>
    have hstep : ∀ {found : Option Nat}, found.map (· + 1) = some index →
        (∀ {inner}, found = some inner →
          ∃ closer, run[inner]? = some closer ∧ closer.kind = closes) →
        ∃ closer, (token :: run)[index]? = some closer ∧ closer.kind = closes := by
      intro found hfound hinner
      obtain ⟨inner, rfl, rfl⟩ := Option.map_eq_some_iff.mp hfound
      exact hinner rfl
    rw [closerIndex?] at h
    split at h
    · exact hstep h ih
    · split at h
      · next hcloses =>
        split at h
        · cases h
          exact ⟨token, rfl, beq_iff_eq.mp hcloses⟩
        · exact hstep h ih
      · exact hstep h ih

/-! ## Matching by a stack -/

/-- The pairs closed in a run that starts at a place, while openers are open at the given places,
innermost first. -/
def matchedFrom (opens closes : Kind) : List Nat → Nat → Run → List (Nat × Nat)
  | _, _, [] => []
  | opened, place, token :: rest =>
    if token.kind == opens then matchedFrom opens closes (place :: opened) (place + 1) rest
    else if token.kind == closes then
      opened.head?.toList.map (·, place) ++ matchedFrom opens closes opened.tail (place + 1) rest
    else matchedFrom opens closes opened (place + 1) rest

/-- The places of matching tokens: each closer with the opener that was put last and is still open.
-/
def matched (opens closes : Kind) (run : Run) : List (Nat × Nat) :=
  matchedFrom opens closes [] 0 run

section Stack

variable {opened inner outer : List Nat} {place last opener : Nat}

/-- What is closed was open, or opens further right. -/
theorem mem_or_le_of_mem_matchedFrom
    (h : (opener, last) ∈ matchedFrom opens closes opened place run) :
    opener ∈ opened ∨ place ≤ opener := by
  induction run generalizing opened place with
  | nil => simp [matchedFrom] at h
  | cons token run ih =>
    rw [matchedFrom] at h
    split at h
    · rcases ih h with hmem | hle
      · rcases List.mem_cons.mp hmem with rfl | hmem
        · exact .inr (Nat.le_refl _)
        · exact .inl hmem
      · exact .inr (Nat.le_of_succ_le hle)
    · split at h
      · rcases List.mem_append.mp h with h | h
        · obtain ⟨_, hhead, heq⟩ := List.mem_map.mp h
          cases heq
          exact .inl (List.mem_of_mem_head? (Option.mem_toList.mp hhead))
        · exact (ih h).imp List.mem_of_mem_tail Nat.le_of_succ_le
      · exact (ih h).imp_right Nat.le_of_succ_le

/-- An opener on the stack is matched with the closer that counting finds, as deep as there are
openers above it. -/
theorem mem_matchedFrom_iff (hinner : opener ∉ inner) (houter : opener ∉ outer)
    (hplace : opener < place) :
    (opener, last) ∈ matchedFrom opens closes (inner ++ opener :: outer) place run
      ↔ ∃ index, closerIndex? opens closes inner.length run = some index
        ∧ last = place + index := by
  induction run generalizing inner place with
  | nil => simp [matchedFrom, closerIndex?]
  | cons token run ih =>
    -- behind one token more the index is one less
    have hstep : ∀ found : Option Nat,
        (∃ index, found = some index ∧ last = place + 1 + index)
          ↔ ∃ index, found.map (· + 1) = some index ∧ last = place + index := by
      intro found
      cases found with
      | none => simp
      | some index => simp [Nat.add_assoc, Nat.add_comm 1]
    rw [matchedFrom, closerIndex?]
    split
    · have hnot : opener ∉ place :: inner := by
        rw [List.mem_cons, not_or]
        exact ⟨by omega, hinner⟩
      exact (ih hnot (by omega)).trans (hstep _)
    · split
      · cases inner with
        | nil =>
          have hnone : (opener, last) ∉ matchedFrom opens closes outer (place + 1) run := by
            intro h
            rcases mem_or_le_of_mem_matchedFrom h with hmem | hle
            · exact houter hmem
            · omega
          simp [hnone]
        | cons innermost inner =>
          rw [List.mem_cons, not_or] at hinner
          have hhead : (opener, last) ≠ (innermost, place) :=
            fun h => hinner.1 (congrArg Prod.fst h)
          rw [List.cons_append, List.head?_cons, List.tail_cons, Option.toList_some,
            List.map_singleton, List.singleton_append, List.mem_cons, List.length_cons,
            if_neg (Nat.succ_ne_zero _), Nat.add_sub_cancel]
          exact (or_iff_right hhead).trans ((ih hinner.2 (by omega)).trans (hstep _))
      · exact (ih hinner (by omega)).trans (hstep _)

/-- An opener is matched with the closer that counting finds behind it, whatever stands in front. -/
theorem mem_matchedFrom_append_iff {front : Run} (hopened : ∀ other ∈ opened, other < place)
    (hopens : token.kind = opens) :
    (place + front.length, last) ∈ matchedFrom opens closes opened place (front ++ token :: run)
      ↔ ∃ index, closerIndex? opens closes 0 run = some index
        ∧ last = place + front.length + 1 + index := by
  induction front generalizing opened place with
  | nil =>
    rw [List.nil_append, matchedFrom, if_pos (beq_iff_eq.mpr hopens)]
    exact mem_matchedFrom_iff List.not_mem_nil
      (fun hmem => Nat.lt_irrefl _ (hopened _ hmem)) (Nat.lt_succ_self _)
  | cons first front ih =>
    have hlength : place + (first :: front).length = place + 1 + front.length := by
      rw [List.length_cons]
      omega
    have hopened' : ∀ other ∈ opened, other < place + 1 :=
      fun other hmem => Nat.lt_succ_of_lt (hopened other hmem)
    rw [hlength, List.cons_append, matchedFrom]
    split
    · exact ih (List.forall_mem_cons.mpr ⟨Nat.lt_succ_self _, hopened'⟩)
    · split
      · have hhead : (place + 1 + front.length, last) ∉ opened.head?.toList.map (·, place) := by
          intro hmem
          obtain ⟨other, hother, heq⟩ := List.mem_map.mp hmem
          have hlt := hopened other (List.mem_of_mem_head? (Option.mem_toList.mp hother))
          have hfst : other = place + 1 + front.length := congrArg Prod.fst heq
          omega
        rw [List.mem_append, or_iff_right hhead]
        exact ih fun other hmem => hopened' other (List.mem_of_mem_tail hmem)
      · exact ih hopened'

/-- The stack matches an opener with the closer that counting finds behind it. -/
theorem mem_matched_iff (closes : Kind) (front run : Run) (last : Nat)
    (hopens : token.kind = opens) :
    (front.length, last) ∈ matched opens closes (front ++ token :: run)
      ↔ ∃ index, closerIndex? opens closes 0 run = some index
        ∧ last = front.length + 1 + index := by
  have h : (0 + front.length, last) ∈ matchedFrom opens closes [] 0 (front ++ token :: run)
      ↔ ∃ index, closerIndex? opens closes 0 run = some index
        ∧ last = 0 + front.length + 1 + index :=
    mem_matchedFrom_append_iff (List.forall_mem_nil _) hopens
  rwa [Nat.zero_add] at h

end Stack

/-! ## Brackets of one kind -/

section Brackets

variable {bracket : Bracket}

/-- Readers go up to the closer that counting finds. -/
theorem balanced_eq_map_closerIndex? (bracket : Bracket) (depth : Nat) (run : Run) :
    run.balanced bracket depth
      = (closerIndex? (.punctuation bracket.opener) (.punctuation bracket.closer) depth run).map
        fun index => (run.take index, run.drop (index + 1)) := by
  induction run generalizing depth with
  | nil => rfl
  | cons token run ih =>
    have hstep : ∀ found : Option Nat,
        (found.map fun index => (run.take index, run.drop (index + 1))).map
          (fun (body, left) => (token :: body, left))
        = (found.map (· + 1)).map
          fun index => ((token :: run).take index, (token :: run).drop (index + 1)) := by
      rintro (_ | index) <;> rfl
    rw [balanced, closerIndex?, ← Token.isMark, ← Token.isMark]
    by_cases hopens : token.isMark bracket.opener = true
    · simp only [hopens, not_closer_of_opener hopens, if_true, Bool.false_eq_true, false_and,
        if_false, ih, hstep]
    · by_cases hcloses : token.isMark bracket.closer = true
      · by_cases hzero : depth = 0
        · simp [hopens, hcloses, hzero]
        · simp only [hopens, hcloses, hzero, if_true, Bool.false_eq_true, and_false, if_false, ih,
            hstep]
      · simp only [hopens, hcloses, Bool.false_eq_true, false_and, if_false, ih, hstep]

theorem pairsFrom_eq_matchedFrom (bracket : Bracket) (opened : List Nat) (place : Nat) (run : Run) :
    pairsFrom bracket opened place run = matchedFrom (.punctuation bracket.opener)
      (.punctuation bracket.closer) opened place run := by
  induction run generalizing opened place with
  | nil => rfl
  | cons token run ih => rw [pairsFrom, matchedFrom, ih, ih, ih]; rfl

theorem pairs_eq_matched (bracket : Bracket) (run : Run) : pairs bracket run
    = matched (.punctuation bracket.opener) (.punctuation bracket.closer) run :=
  pairsFrom_eq_matchedFrom bracket [] 0 run

end Brackets

end SdlSchema.Run
