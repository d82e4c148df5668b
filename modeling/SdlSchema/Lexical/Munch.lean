/-
# The longest word at the start of a text

A lexicon is a list of rules, each a kind of word with the pattern of such words.  The word read
at the start of a text is the longest that some rule describes; the earlier of two rules wins at
the same length.  Where no rule describes a word, `reach` tells how far some rule could still
have been followed.

* `longest_eq_some` : `longest` finds the longest described word, with the kind that wins;
* `longest_eq_none_iff` : it finds none exactly if no beginning of the text is described;
* `le_reach_iff` : `reach` counts the characters that can begin a word of some rule.
-/
import SdlSchema.Lexical.Pattern

namespace SdlSchema

/-- The pattern of the words of one kind. -/
structure Rule (κ : Type) where
  kind : κ
  pattern : Pattern

/-- Rules, from the one that wins at equal length to the one that loses. -/
abbrev Lexicon (κ : Type) := List (Rule κ)

namespace Lexicon

variable {κ : Type}

/-! ## Following a text through all rules at once -/

/-- The rules for what may follow `c`; a rule that describes nothing any more is given up. -/
def after (rules : Lexicon κ) (c : Char) : Lexicon κ :=
  (rules.map fun rule => { rule with pattern := rule.pattern.after c }).filter (·.pattern.isLive)

/-- The kind of the first rule that describes the empty word. -/
def accepted (rules : Lexicon κ) : Option κ :=
  (rules.find? (·.pattern.nullable)).map Rule.kind

/-- The length and kind of the longest described word at the start of a text. -/
def longest (rules : Lexicon κ) : List Char → Option (Nat × κ)
  | [] => rules.accepted.map (0, ·)
  | c :: text =>
    let further := match rules.after c with
      | [] => none
      | rule :: others => longest (rule :: others) text
    match further with
    | some (length, kind) => some (length + 1, kind)
    | none => rules.accepted.map (0, ·)

/-- The number of characters at the start of a text along which some rule can be followed. -/
def reach (rules : Lexicon κ) : List Char → Nat
  | [] => 0
  | c :: text =>
    match rules.after c with
    | [] => 0
    | rule :: others => reach (rule :: others) text + 1

/-! ## Kinds of words -/

/-- The kind of a word is that of the first rule that describes it. -/
def IsKind : Lexicon κ → List Char → κ → Prop
  | [], _, _ => False
  | rule :: rules, word, kind =>
    (rule.pattern.Matches word ∧ rule.kind = kind) ∨
      (¬ rule.pattern.Matches word ∧ IsKind rules word kind)

/-- Some rule describes the word. -/
def Describes (rules : Lexicon κ) (word : List Char) : Prop :=
  ∃ rule ∈ rules, rule.pattern.Matches word

/-- A word has a kind exactly if some rule describes it. -/
theorem exists_isKind_iff (rules : Lexicon κ) (word : List Char) :
    (∃ kind, IsKind rules word kind) ↔ rules.Describes word := by
  induction rules with
  | nil => simp [IsKind, Describes]
  | cons rule rules ih =>
    by_cases h : rule.pattern.Matches word
    · exact ⟨fun _ => ⟨rule, List.mem_cons_self, h⟩, fun _ => ⟨rule.kind, Or.inl ⟨h, rfl⟩⟩⟩
    · constructor
      · rintro ⟨kind, ⟨hm, _⟩ | ⟨_, hk⟩⟩
        · exact absurd hm h
        · obtain ⟨found, hin, hm⟩ := ih.mp ⟨kind, hk⟩
          exact ⟨found, List.mem_cons_of_mem rule hin, hm⟩
      · rintro ⟨found, hin, hm⟩
        rcases List.mem_cons.mp hin with rfl | hin
        · exact absurd hm h
        · obtain ⟨kind, hk⟩ := ih.mpr ⟨found, hin, hm⟩
          exact ⟨kind, Or.inr ⟨h, hk⟩⟩

/-- A word has one kind at most. -/
theorem IsKind.unique {rules : Lexicon κ} {word : List Char} {kind other : κ}
    (h : IsKind rules word kind) (h' : IsKind rules word other) : kind = other := by
  induction rules with
  | nil => exact absurd h id
  | cons rule rules ih =>
    rcases h with ⟨hm, rfl⟩ | ⟨hn, h⟩
    · rcases h' with ⟨_, rfl⟩ | ⟨hn', _⟩
      · rfl
      · exact absurd hm hn'
    · rcases h' with ⟨hm', _⟩ | ⟨_, h'⟩
      · exact absurd hm' hn
      · exact ih h h'

/-! ## One character further -/

/-- A pattern that describes a word is live. -/
theorem isLive_of_matches {pattern : Pattern} {word : List Char} (h : pattern.Matches word) :
    pattern.isLive = true := by
  induction h with
  | seq hs ht ihs iht => simp [Pattern.isLive, ihs, iht]
  | left h ih => simp [Pattern.isLive, ih]
  | right h ih => simp [Pattern.isLive, ih]
  | _ => rfl

theorem after_cons (rule : Rule κ) (rules : Lexicon κ) (c : Char) :
    after (rule :: rules) c =
      if (rule.pattern.after c).isLive then
        { rule with pattern := rule.pattern.after c } :: rules.after c
      else rules.after c := by
  rw [after, List.map_cons, List.filter_cons]
  rfl

/-- A word of the rules behind `c` has the kind of the word with `c` in front. -/
theorem isKind_after_iff (rules : Lexicon κ) (c : Char) (word : List Char) (kind : κ) :
    IsKind (rules.after c) word kind ↔ IsKind rules (c :: word) kind := by
  induction rules with
  | nil => exact Iff.rfl
  | cons rule rules ih =>
    rw [after_cons]
    split
    · simp only [IsKind, Pattern.matches_after_iff, ih]
    · next hdead =>
      have hn : ¬ rule.pattern.Matches (c :: word) := fun h =>
        hdead (isLive_of_matches ((Pattern.matches_after_iff _ _ _).mpr h))
      simp only [IsKind, ih, hn, false_and, false_or, not_false_eq_true, true_and]

/-- The rules behind `c` describe the words that with `c` in front are described. -/
theorem describes_after_iff (rules : Lexicon κ) (c : Char) (word : List Char) :
    (rules.after c).Describes word ↔ rules.Describes (c :: word) := by
  simp only [← exists_isKind_iff, isKind_after_iff]

/-- The accepted kind is the kind of the empty word. -/
theorem accepted_eq_some_iff (rules : Lexicon κ) (kind : κ) :
    rules.accepted = some kind ↔ IsKind rules [] kind := by
  induction rules with
  | nil => simp [accepted, IsKind]
  | cons rule rules ih =>
    by_cases h : rule.pattern.nullable = true
    · have hm := (Pattern.nullable_iff _).mp h
      simp [accepted, IsKind, h, hm]
    · have hm : ¬ rule.pattern.Matches [] := fun hm => h ((Pattern.nullable_iff _).mpr hm)
      have haccepted : accepted (rule :: rules) = accepted rules := by simp [accepted, h]
      rw [haccepted, ih]
      simp only [IsKind, hm, false_and, false_or, not_false_eq_true, true_and]

theorem accepted_eq_none_iff (rules : Lexicon κ) :
    rules.accepted = none ↔ ¬ rules.Describes [] := by
  rw [← exists_isKind_iff]
  simp only [← accepted_eq_some_iff]
  cases rules.accepted <;> simp

/-! ## The longest word -/

theorem longest_nil (text : List Char) : longest ([] : Lexicon κ) text = none := by
  cases text <;> rfl

theorem longest_cons (rules : Lexicon κ) (c : Char) (text : List Char) :
    rules.longest (c :: text) =
      match (rules.after c).longest text with
      | some (length, kind) => some (length + 1, kind)
      | none => rules.accepted.map (0, ·) := by
  rw [longest]
  cases h : rules.after c with
  | nil => rw [longest_nil]
  | cons rule others => rfl

/-- If `longest` finds nothing, no beginning of the text is described. -/
theorem not_describes_of_longest_eq_none {rules : Lexicon κ} {text : List Char}
    (h : rules.longest text = none) (n : Nat) : ¬ rules.Describes (text.take n) := by
  induction text generalizing rules n with
  | nil =>
    rw [longest, Option.map_eq_none_iff, accepted_eq_none_iff] at h
    simpa using h
  | cons c text ih =>
    rw [longest_cons] at h
    split at h
    · cases h
    · next hnone =>
      cases n with
      | zero => exact (accepted_eq_none_iff rules).mp (Option.map_eq_none_iff.mp h)
      | succ n =>
        rw [List.take_succ_cons, ← describes_after_iff]
        exact ih hnone n

/-- What `longest` finds is the longest described word, with the kind that wins. -/
theorem longest_eq_some {rules : Lexicon κ} {text : List Char} {length : Nat} {kind : κ}
    (h : rules.longest text = some (length, kind)) :
    length ≤ text.length ∧ IsKind rules (text.take length) kind ∧
      ∀ n, length < n → n ≤ text.length → ¬ rules.Describes (text.take n) := by
  induction text generalizing rules length kind with
  | nil =>
    obtain ⟨found, hfound, heq⟩ := Option.map_eq_some_iff.mp h
    cases heq
    refine ⟨Nat.le_refl 0, (accepted_eq_some_iff rules kind).mp hfound, ?_⟩
    intro n hn hle
    simp only [List.length_nil] at hle
    omega
  | cons c text ih =>
    rw [longest_cons] at h
    split at h
    · -- a longer beginning is described, and it wins
      next length' kind' hsome =>
      cases h
      obtain ⟨hle, hkind, hmax⟩ := ih hsome
      refine ⟨Nat.succ_le_succ hle, (isKind_after_iff rules c _ kind).mp hkind, ?_⟩
      intro n hn hnle
      cases n with
      | zero => omega
      | succ n =>
        rw [List.take_succ_cons, ← describes_after_iff]
        exact hmax n (by omega) (Nat.le_of_succ_le_succ hnle)
    · next hnone =>
      obtain ⟨found, hfound, heq⟩ := Option.map_eq_some_iff.mp h
      cases heq
      refine ⟨Nat.zero_le _, (accepted_eq_some_iff rules kind).mp hfound, ?_⟩
      intro n hn hnle
      cases n with
      | zero => omega
      | succ n =>
        rw [List.take_succ_cons, ← describes_after_iff]
        -- no longer beginning is described, so the empty one stands
        exact not_describes_of_longest_eq_none hnone n

/-- Nothing is found by `longest` exactly if no beginning of the text is described. -/
theorem longest_eq_none_iff (rules : Lexicon κ) (text : List Char) :
    rules.longest text = none ↔ ∀ n, ¬ rules.Describes (text.take n) := by
  refine ⟨fun h n => not_describes_of_longest_eq_none h n, fun h => ?_⟩
  cases hlongest : rules.longest text with
  | none => rfl
  | some found =>
    obtain ⟨length, kind⟩ := found
    exact absurd ((exists_isKind_iff _ _).mp ⟨kind, (longest_eq_some hlongest).2.1⟩) (h length)

/-! ## How far a text can be followed -/

/-- Every class in every rule holds a character. -/
def Inhabited (rules : Lexicon κ) : Prop := ∀ rule ∈ rules, rule.pattern.Inhabited

theorem Inhabited.after {rules : Lexicon κ} (h : rules.Inhabited) (c : Char) :
    (rules.after c).Inhabited := by
  intro rule hin
  obtain ⟨origin, horigin, heq⟩ := List.mem_map.mp (List.mem_filter.mp hin).1
  rw [← heq]
  exact (h origin horigin).after c

/-- Some rule is left behind `c` exactly if `c` begins a word of some rule. -/
theorem after_ne_nil_iff {rules : Lexicon κ} (h : rules.Inhabited) (c : Char) :
    rules.after c ≠ [] ↔ ∃ word, rules.Describes (c :: word) := by
  constructor
  · intro hne
    obtain ⟨rule, hin⟩ := List.exists_mem_of_ne_nil _ hne
    have hlive := (List.mem_filter.mp hin).2
    obtain ⟨word, hword⟩ := (Pattern.isLive_iff (h.after c rule hin)).mp hlive
    exact ⟨word, (describes_after_iff rules c word).mp ⟨rule, hin, hword⟩⟩
  · rintro ⟨word, hword⟩ hnil
    obtain ⟨rule, hin, _⟩ := (describes_after_iff rules c word).mpr hword
    rw [hnil] at hin
    exact absurd hin List.not_mem_nil

theorem reach_nil (text : List Char) : reach ([] : Lexicon κ) text = 0 := by
  cases text <;> rfl

/-- The number `reach` counts the characters that can begin a word of some rule. -/
theorem le_reach_iff {rules : Lexicon κ} (h : rules.Inhabited) (text : List Char) (n : Nat) :
    n + 1 ≤ rules.reach text ↔
      n + 1 ≤ text.length ∧ ∃ word, rules.Describes (text.take (n + 1) ++ word) := by
  induction text generalizing rules n with
  | nil => simp [reach]
  | cons c text ih =>
    rw [reach, List.take_succ_cons]
    simp only [List.length_cons, List.cons_append, ← describes_after_iff]
    cases hafter : rules.after c with
    | nil =>
      simp only [Describes, List.not_mem_nil, false_and, exists_false, and_false, iff_false]
      omega
    | cons rule others =>
      have hrules : Lexicon.Inhabited (rule :: others) := hafter ▸ h.after c
      cases n with
      | zero =>
        have hne := (after_ne_nil_iff h c).mp (hafter ▸ List.cons_ne_nil rule others)
        simp only [List.take_zero, List.nil_append]
        refine ⟨fun _ => ⟨by omega, ?_⟩, fun _ => by omega⟩
        obtain ⟨word, hword⟩ := hne
        exact ⟨word, hafter ▸ (describes_after_iff rules c word).mpr hword⟩
      | succ n =>
        rw [Nat.succ_le_succ_iff, ih hrules n, Nat.succ_le_succ_iff]

end Lexicon

end SdlSchema
