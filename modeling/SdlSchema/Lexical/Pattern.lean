/-
# Patterns of words

Regular expressions over characters.  `Matches` says which words a pattern describes; `after p
c` describes what may follow the character `c` in a word of `p`, so that a text can be followed
through a pattern from left to right.

* `matches_after_iff` : `after p c` describes exactly the words `w` with `c :: w` described by
  `p`;
* `nullable_iff` : the test for the empty word is exact;
* `isLive_iff` : a pattern of inhabited classes is live exactly when it describes some word.
-/

namespace SdlSchema

/-- A regular expression over characters. -/
inductive Pattern where
  /-- No word at all. -/
  | never
  /-- The empty word. -/
  | empty
  /-- One character of a class. -/
  | one (allowed : Char → Bool)
  /-- A word of `first`, then a word of `second`. -/
  | seq (first second : Pattern)
  /-- A word of `left` or a word of `right`. -/
  | either (left right : Pattern)
  /-- Any number of words of `body`, one after the other. -/
  | many (body : Pattern)

namespace Pattern

/-! ## The language of a pattern -/

/-- The words that a pattern describes. -/
inductive Matches : Pattern → List Char → Prop
  | empty : Matches .empty []
  | one {allowed : Char → Bool} {c : Char} (h : allowed c = true) : Matches (.one allowed) [c]
  | seq {p q : Pattern} {s t : List Char} (hs : Matches p s) (ht : Matches q t) :
      Matches (.seq p q) (s ++ t)
  | left {p q : Pattern} {s : List Char} (h : Matches p s) : Matches (.either p q) s
  | right {p q : Pattern} {s : List Char} (h : Matches q s) : Matches (.either p q) s
  | many_nil {p : Pattern} : Matches (.many p) []
  | many_append {p : Pattern} {s t : List Char} (hs : Matches p s) (ht : Matches (.many p) t) :
      Matches (.many p) (s ++ t)

/-! ## Building patterns -/

/-- Exactly the character `c`. -/
def char (c : Char) : Pattern := .one (· == c)

/-- Exactly the given text. -/
def text : List Char → Pattern
  | [] => .empty
  | [c] => char c
  | c :: cs => .seq (char c) (text cs)

/-- One word of `p` or more. -/
def oneOrMore (p : Pattern) : Pattern := .seq p (.many p)

/-- A word of `p`, or nothing. -/
def optional (p : Pattern) : Pattern := .either p .empty

/-- The patterns one after the other. -/
def inOrder : List Pattern → Pattern
  | [] => .empty
  | [p] => p
  | p :: ps => .seq p (inOrder ps)

/-! ## Following a text through a pattern -/

/-- Whether the empty word is described. -/
def nullable : Pattern → Bool
  | .never => false
  | .empty => true
  | .one _ => false
  | .seq p q => p.nullable && q.nullable
  | .either p q => p.nullable || q.nullable
  | .many _ => true

/-- Whether some word is described, given that every class holds a character. -/
def isLive : Pattern → Bool
  | .never => false
  | .empty => true
  | .one _ => true
  | .seq p q => p.isLive && q.isLive
  | .either p q => p.isLive || q.isLive
  | .many _ => true

/-- The pattern `seq` without needless parts. -/
def andThen : Pattern → Pattern → Pattern
  | .never, _ => .never
  | .empty, q => q
  | p, q => .seq p q

/-- The pattern `either` without needless parts. -/
def orElse : Pattern → Pattern → Pattern
  | .never, q => q
  | p, .never => p
  | p, q => .either p q

/-- What may follow the character `c` in a described word. -/
def after : Pattern → Char → Pattern
  | .never, _ => .never
  | .empty, _ => .never
  | .one allowed, c => if allowed c then .empty else .never
  | .seq p q, c =>
    if p.nullable then ((p.after c).andThen q).orElse (q.after c) else (p.after c).andThen q
  | .either p q, c => (p.after c).orElse (q.after c)
  | .many p, c => (p.after c).andThen (.many p)

/-! ## Inversion of `Matches` -/

@[simp] theorem matches_never (w : List Char) : Matches .never w ↔ False :=
  ⟨fun h => (nomatch h), False.elim⟩

@[simp] theorem matches_empty (w : List Char) : Matches .empty w ↔ w = [] :=
  ⟨fun h => by cases h; rfl, fun h => h ▸ .empty⟩

@[simp] theorem matches_one (allowed : Char → Bool) (w : List Char) :
    Matches (.one allowed) w ↔ ∃ c, allowed c = true ∧ w = [c] :=
  ⟨fun h => by
      cases h with
      | one h => exact ⟨_, h, rfl⟩,
    fun ⟨_, h, e⟩ => e ▸ .one h⟩

theorem matches_seq (p q : Pattern) (w : List Char) :
    Matches (.seq p q) w ↔ ∃ s t, Matches p s ∧ Matches q t ∧ w = s ++ t :=
  ⟨fun h => by
      cases h with
      | seq hs ht => exact ⟨_, _, hs, ht, rfl⟩,
    fun ⟨_, _, hs, ht, e⟩ => e ▸ .seq hs ht⟩

theorem matches_either (p q : Pattern) (w : List Char) :
    Matches (.either p q) w ↔ Matches p w ∨ Matches q w :=
  ⟨fun h => by
      cases h with
      | left h => exact Or.inl h
      | right h => exact Or.inr h,
    fun h => h.elim .left .right⟩

/-- A nonempty word of `many p` begins with a nonempty word of `p`. -/
theorem matches_many_cons (p : Pattern) (c : Char) (w : List Char) :
    Matches (.many p) (c :: w) ↔
      ∃ s t, Matches p (c :: s) ∧ Matches (.many p) t ∧ w = s ++ t := by
  constructor
  · intro h
    generalize hp : Pattern.many p = r at h
    generalize hw : c :: w = v at h
    induction h with
    | many_nil => cases hw
    | @many_append p' s t hs ht _ ih =>
      injection hp with hp
      subst hp
      cases s with
      | nil => exact ih rfl hw
      | cons d s =>
        rw [List.cons_append] at hw
        injection hw with hc hw
        exact ⟨s, t, hc ▸ hs, ht, hw⟩
    | _ => cases hp
  · rintro ⟨s, t, hs, ht, rfl⟩
    exact .many_append hs ht

theorem matches_many_nil (p : Pattern) : Matches (.many p) [] := .many_nil

/-! ## Exactness of the tests -/

/-- The test for the empty word is exact. -/
theorem nullable_iff (p : Pattern) : p.nullable = true ↔ Matches p [] := by
  induction p with
  | never => simp [nullable]
  | empty => simp [nullable]
  | one allowed => simp [nullable]
  | seq p q ihp ihq =>
    rw [nullable, Bool.and_eq_true, ihp, ihq, matches_seq]
    constructor
    · rintro ⟨hp, hq⟩
      exact ⟨[], [], hp, hq, rfl⟩
    · rintro ⟨s, t, hp, hq, e⟩
      obtain ⟨rfl, rfl⟩ := List.append_eq_nil_iff.mp e.symm
      exact ⟨hp, hq⟩
  | either p q ihp ihq => rw [nullable, Bool.or_eq_true, ihp, ihq, matches_either]
  | many p => simp [nullable, matches_many_nil]

/-- The short form `andThen` describes the same words as `seq`. -/
theorem matches_andThen (p q : Pattern) (w : List Char) :
    Matches (p.andThen q) w ↔ Matches (.seq p q) w := by
  cases p <;> simp [andThen, matches_seq]

/-- The short form `orElse` describes the same words as `either`. -/
theorem matches_orElse (p q : Pattern) (w : List Char) :
    Matches (p.orElse q) w ↔ Matches (.either p q) w := by
  cases p <;> cases q <;> simp [orElse, matches_either]

/-- The pattern `after p c` describes exactly what follows `c` in the words of `p`. -/
theorem matches_after_iff (p : Pattern) (c : Char) (w : List Char) :
    Matches (p.after c) w ↔ Matches p (c :: w) := by
  induction p generalizing w with
  | never => simp [after]
  | empty => simp [after]
  | one allowed =>
    by_cases h : allowed c = true
    · rw [after, if_pos h, matches_empty, matches_one]
      exact ⟨fun e => ⟨c, h, e ▸ rfl⟩, fun ⟨_, _, e⟩ => (List.cons.inj e).2⟩
    · rw [after, if_neg h, matches_never, matches_one]
      exact ⟨False.elim, fun ⟨_, hd, e⟩ => h ((List.cons.inj e).1 ▸ hd)⟩
  | seq p q ihp ihq =>
    have hseq : Matches ((p.after c).andThen q) w ↔
        ∃ s t, Matches p (c :: s) ∧ Matches q t ∧ w = s ++ t := by
      simp only [matches_andThen, matches_seq, ihp]
    -- the first character belongs to the first part, or to the second where the first may be empty
    have hcons : Matches (.seq p q) (c :: w) ↔
        (∃ s t, Matches p (c :: s) ∧ Matches q t ∧ w = s ++ t) ∨
          (Matches p [] ∧ Matches q (c :: w)) := by
      rw [matches_seq]
      constructor
      · rintro ⟨s, t, hs, ht, e⟩
        cases s with
        | nil => exact Or.inr ⟨hs, e ▸ ht⟩
        | cons d s =>
          rw [List.cons_append] at e
          injection e with hc hw
          exact Or.inl ⟨s, t, hc ▸ hs, ht, hw⟩
      · rintro (⟨s, t, hs, ht, rfl⟩ | ⟨hs, ht⟩)
        · exact ⟨c :: s, t, hs, ht, rfl⟩
        · exact ⟨[], c :: w, hs, ht, rfl⟩
    rw [hcons, after]
    by_cases hn : p.nullable = true
    · have hp := (nullable_iff p).mp hn
      simp only [hn, if_true, matches_orElse, matches_either, hseq, ihq, hp, true_and]
    · have hp : ¬ Matches p [] := fun h => hn ((nullable_iff p).mpr h)
      rw [if_neg hn, hseq]
      simp only [hp, false_and, or_false]
  | either p q ihp ihq =>
    simp only [after, matches_orElse, matches_either, ihp, ihq]
  | many p ihp =>
    simp only [after, matches_andThen, matches_seq, ihp, matches_many_cons]

/-! ## Live patterns -/

/-- Every class in the pattern holds a character. -/
def Inhabited : Pattern → Prop
  | .never => True
  | .empty => True
  | .one allowed => ∃ c, allowed c = true
  | .seq p q => p.Inhabited ∧ q.Inhabited
  | .either p q => p.Inhabited ∧ q.Inhabited
  | .many p => p.Inhabited

/-- A pattern of inhabited classes is live exactly when it describes some word. -/
theorem isLive_iff {p : Pattern} (h : p.Inhabited) : p.isLive = true ↔ ∃ w, Matches p w := by
  induction p with
  | never => simp [isLive]
  | empty => simp [isLive]
  | one allowed =>
    obtain ⟨c, hc⟩ := h
    exact ⟨fun _ => ⟨[c], .one hc⟩, fun _ => rfl⟩
  | seq p q ihp ihq =>
    rw [isLive, Bool.and_eq_true, ihp h.1, ihq h.2]
    constructor
    · rintro ⟨⟨s, hs⟩, t, ht⟩
      exact ⟨s ++ t, .seq hs ht⟩
    · rintro ⟨w, hw⟩
      obtain ⟨s, t, hs, ht, _⟩ := (matches_seq p q w).mp hw
      exact ⟨⟨s, hs⟩, t, ht⟩
  | either p q ihp ihq =>
    rw [isLive, Bool.or_eq_true, ihp h.1, ihq h.2]
    constructor
    · rintro (⟨w, hw⟩ | ⟨w, hw⟩)
      · exact ⟨w, .left hw⟩
      · exact ⟨w, .right hw⟩
    · rintro ⟨w, hw⟩
      exact ((matches_either p q w).mp hw).imp (fun h => ⟨w, h⟩) (fun h => ⟨w, h⟩)
  | many p => exact ⟨fun _ => ⟨[], .many_nil⟩, fun _ => rfl⟩

theorem Inhabited.andThen {p q : Pattern} (hp : p.Inhabited) (hq : q.Inhabited) :
    (p.andThen q).Inhabited := by
  cases p <;> first | exact hq | exact ⟨hp, hq⟩ | trivial

theorem Inhabited.orElse {p q : Pattern} (hp : p.Inhabited) (hq : q.Inhabited) :
    (p.orElse q).Inhabited := by
  cases p <;> cases q <;> first | exact hq | exact hp | exact ⟨hp, hq⟩

/-- Following a character uses the classes of the pattern and no others. -/
theorem Inhabited.after {p : Pattern} (h : p.Inhabited) (c : Char) : (p.after c).Inhabited := by
  induction p with
  | never => trivial
  | empty => trivial
  | one allowed => rw [Pattern.after]; split <;> trivial
  | seq p q ihp ihq =>
    rw [Pattern.after]
    split
    · exact ((ihp h.1).andThen h.2).orElse (ihq h.2)
    · exact (ihp h.1).andThen h.2
  | either p q ihp ihq => exact (ihp h.1).orElse (ihq h.2)
  | many p ihp => exact (ihp h).andThen h

end Pattern

end SdlSchema
