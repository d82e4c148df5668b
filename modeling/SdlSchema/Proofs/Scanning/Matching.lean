/-
# Matching brackets

Brackets of one kind are matched by a stack: a closer belongs to the opener that was put there
last and is still open.  A closer with nothing open belongs to nothing, and an opener may be left
open at the end.  Reading up to the closer by counting finds the same closer.

* `pairs` : the matching brackets of a run, by their places;
* `mem_pairs_of_balanced` : the closer that counting finds is the one that the stack gives;
* `unclosed_of_balanced_eq_none` : where counting finds none, the opener is never closed;
* `not_enclosed_of_openFrom_eq_nil`, `not_unclosedBefore_of_openFrom_eq_nil` : where nothing is
  open, no pair is around, and nothing in front was left open.
-/
import SdlSchema.Reading.Balanced

namespace SdlSchema

namespace Run

variable {bracket : Bracket}

/-! ## Pairs and openers -/

/-- The pairs closed in a run that starts at a place, while brackets are open at the given places,
innermost first. -/
def pairsFrom (bracket : Bracket) : List Nat → Nat → Run → List (Nat × Nat)
  | _, _, [] => []
  | opened, place, token :: rest =>
    if token.isMark bracket.opener then pairsFrom bracket (place :: opened) (place + 1) rest
    else if token.isMark bracket.closer then
      opened.head?.toList.map (·, place) ++ pairsFrom bracket opened.tail (place + 1) rest
    else pairsFrom bracket opened (place + 1) rest

/-- The openers that are open at the end of a run, innermost first. -/
def openFrom (bracket : Bracket) : List Nat → Nat → Run → List Nat
  | opened, _, [] => opened
  | opened, place, token :: rest =>
    if token.isMark bracket.opener then openFrom bracket (place :: opened) (place + 1) rest
    else if token.isMark bracket.closer then openFrom bracket opened.tail (place + 1) rest
    else openFrom bracket opened (place + 1) rest

/-- The places of matching brackets: each closer with the opener that was put last and is still
open. -/
def pairs (bracket : Bracket) (run : Run) : List (Nat × Nat) := pairsFrom bracket [] 0 run

/-- The place is inside a matching pair. -/
def Enclosed (bracket : Bracket) (run : Run) (place : Nat) : Prop :=
  ∃ pair ∈ pairs bracket run, pair.1 < place ∧ place < pair.2

instance (bracket : Bracket) (run : Run) (place : Nat) : Decidable (Enclosed bracket run place) :=
  inferInstanceAs (Decidable (∃ pair ∈ pairs bracket run, pair.1 < place ∧ place < pair.2))

/-- Every opener has its closer. -/
def AllClosed (bracket : Bracket) (run : Run) : Prop :=
  ∀ place < run.length, ∀ token ∈ run[place]?, token.isMark bracket.opener = true →
    ∃ pair ∈ pairs bracket run, pair.1 = place

instance (bracket : Bracket) (run : Run) : Decidable (AllClosed bracket run) :=
  inferInstanceAs (Decidable (∀ place < run.length, ∀ token ∈ run[place]?,
    token.isMark bracket.opener = true → ∃ pair ∈ pairs bracket run, pair.1 = place))

/-- There is an opener at the place, and no closer belongs to it. -/
def Unclosed (bracket : Bracket) (run : Run) (place : Nat) : Prop :=
  (∃ token, run[place]? = some token ∧ token.isMark bracket.opener = true) ∧
    ∀ pair ∈ pairs bracket run, pair.1 ≠ place

/-- Some opener in front of the place is never closed. -/
def UnclosedBefore (bracket : Bracket) (run : Run) (place : Nat) : Prop :=
  ∃ opener < place, Unclosed bracket run opener

theorem AllClosed.not_unclosed {run : Run} (h : AllClosed bracket run) (place : Nat) :
    ¬ Unclosed bracket run place := by
  rintro ⟨⟨token, htoken, hopener⟩, hnone⟩
  have hlt := (List.getElem?_eq_some_iff.mp htoken).1
  obtain ⟨pair, hpair, heq⟩ := h place hlt token htoken hopener
  exact hnone pair hpair heq

theorem UnclosedBefore.mono {run : Run} {place later : Nat}
    (h : UnclosedBefore bracket run place) (hle : place ≤ later) :
    UnclosedBefore bracket run later := by
  obtain ⟨opener, hlt, hopener⟩ := h
  exact ⟨opener, Nat.lt_of_lt_of_le hlt hle, hopener⟩

/-! ## One stretch after the other -/

theorem pairsFrom_append (opened : List Nat) (place : Nat) (front rest : Run) :
    pairsFrom bracket opened place (front ++ rest)
      = pairsFrom bracket opened place front
        ++ pairsFrom bracket (openFrom bracket opened place front) (place + front.length) rest := by
  induction front generalizing opened place with
  | nil => rfl
  | cons token front ih =>
    have hlength : place + (front.length + 1) = place + 1 + front.length := by omega
    rw [List.cons_append, pairsFrom, pairsFrom, openFrom, List.length_cons, hlength]
    split
    · rw [ih]
    · split
      · rw [ih, List.append_assoc]
      · rw [ih]

theorem openFrom_append (opened : List Nat) (place : Nat) (front rest : Run) :
    openFrom bracket opened place (front ++ rest)
      = openFrom bracket (openFrom bracket opened place front) (place + front.length) rest := by
  induction front generalizing opened place with
  | nil => rfl
  | cons token front ih =>
    have hlength : place + (front.length + 1) = place + 1 + front.length := by omega
    rw [List.cons_append, openFrom, openFrom, List.length_cons, hlength]
    split
    · rw [ih]
    · split <;> rw [ih]

/-- A pair is closed inside the run, and its opener was open or stands inside, further left. -/
theorem bounds_of_mem_pairsFrom {opened : List Nat} {place : Nat} {run : Run} {pair : Nat × Nat}
    (h : pair ∈ pairsFrom bracket opened place run) :
    (place ≤ pair.2 ∧ pair.2 < place + run.length) ∧
      (pair.1 ∈ opened ∨ (place ≤ pair.1 ∧ pair.1 < pair.2)) := by
  induction run generalizing opened place with
  | nil => simp [pairsFrom] at h
  | cons token run ih =>
    rw [List.length_cons]
    rw [pairsFrom] at h
    split at h
    · -- an opener: the place of the token is one more that may be closed further right
      obtain ⟨⟨hle, hlt⟩, hopener⟩ := ih h
      refine ⟨⟨by omega, by omega⟩, ?_⟩
      rcases hopener with hopener | hopener
      · rcases List.mem_cons.mp hopener with heq | hopener
        · exact Or.inr ⟨by omega, by omega⟩
        · exact Or.inl hopener
      · exact Or.inr ⟨by omega, hopener.2⟩
    · split at h
      · -- a closer: it closes the innermost place, and the others stay open
        rcases List.mem_append.mp h with h | h
        · obtain ⟨opener, hhead, rfl⟩ := List.mem_map.mp h
          exact ⟨⟨Nat.le_refl _, by omega⟩,
            Or.inl (List.mem_of_mem_head? (Option.mem_toList.mp hhead))⟩
        · obtain ⟨⟨hle, hlt⟩, hopener⟩ := ih h
          refine ⟨⟨by omega, by omega⟩, ?_⟩
          rcases hopener with hopener | hopener
          · exact Or.inl (List.mem_of_mem_tail hopener)
          · exact Or.inr ⟨by omega, hopener.2⟩
      · obtain ⟨⟨hle, hlt⟩, hopener⟩ := ih h
        refine ⟨⟨by omega, by omega⟩, hopener.imp_right fun hopener => ?_⟩
        exact ⟨by omega, hopener.2⟩

/-- A pair around the end of `front` is open there. -/
theorem mem_openFrom_of_mem_pairs {front rest : Run} {pair : Nat × Nat}
    (h : pair ∈ pairs bracket (front ++ rest)) (hopener : pair.1 < front.length)
    (hcloser : front.length ≤ pair.2) : pair.1 ∈ openFrom bracket [] 0 front := by
  rw [pairs, pairsFrom_append, List.mem_append] at h
  rcases h with h | h
  · have := (bounds_of_mem_pairsFrom h).1.2
    omega
  · rcases (bounds_of_mem_pairsFrom h).2 with hmem | hle
    · exact hmem
    · omega

/-- What is open in front of a run stays open, or is closed in it. -/
theorem mem_openFrom_or_closed_of_mem {opened : List Nat} {place opener : Nat} {run : Run}
    (h : opener ∈ opened) :
    opener ∈ openFrom bracket opened place run ∨
      ∃ pair ∈ pairsFrom bracket opened place run, pair.1 = opener := by
  induction run generalizing opened place with
  | nil => exact Or.inl h
  | cons token run ih =>
    rw [openFrom, pairsFrom]
    split
    · exact ih (List.mem_cons_of_mem _ h)
    · split
      · cases opened with
        | nil => simp at h
        | cons innermost outer =>
          rcases List.mem_cons.mp h with rfl | h
          · exact Or.inr ⟨_, List.mem_cons_self, rfl⟩
          · refine (ih h).imp_right ?_
            rintro ⟨pair, hpair, heq⟩
            exact ⟨pair, List.mem_cons_of_mem _ hpair, heq⟩
      · exact ih h

/-- An opener is open at the end of the run, or closed in it. -/
theorem mem_openFrom_or_closed {opened : List Nat} {place i : Nat} {run : Run} {token : Token}
    (hi : run[i]? = some token) (htoken : token.isMark bracket.opener = true) :
    place + i ∈ openFrom bracket opened place run ∨
      ∃ pair ∈ pairsFrom bracket opened place run, pair.1 = place + i := by
  obtain ⟨hlt, hget⟩ := List.getElem?_eq_some_iff.mp hi
  have hsplit : run = run.take i ++ token :: run.drop (i + 1) := by
    rw [← hget, List.getElem_cons_drop, List.take_append_drop]
  have hlength : (run.take i).length = i := List.length_take_of_le (Nat.le_of_lt hlt)
  rw [hsplit, openFrom_append, pairsFrom_append, hlength, openFrom, pairsFrom, if_pos htoken,
    if_pos htoken]
  refine (mem_openFrom_or_closed_of_mem List.mem_cons_self).imp_right ?_
  rintro ⟨pair, hpair, heq⟩
  exact ⟨pair, List.mem_append_right _ hpair, heq⟩

/-- Where nothing is open, no pair is around. -/
theorem not_enclosed_of_openFrom_eq_nil {front rest : Run}
    (h : openFrom bracket [] 0 front = []) : ¬ Enclosed bracket (front ++ rest) front.length := by
  rintro ⟨pair, hpair, hopener, hcloser⟩
  have hmem := mem_openFrom_of_mem_pairs hpair hopener (Nat.le_of_lt hcloser)
  simp [h] at hmem

/-- Where nothing is open, everything in front was closed. -/
theorem not_unclosedBefore_of_openFrom_eq_nil {front rest : Run}
    (h : openFrom bracket [] 0 front = []) :
    ¬ UnclosedBefore bracket (front ++ rest) front.length := by
  rintro ⟨opener, hlt, ⟨token, htoken, hmark⟩, hnone⟩
  rw [List.getElem?_append_left hlt] at htoken
  rcases mem_openFrom_or_closed htoken hmark with hopen | ⟨pair, hpair, heq⟩
  · rw [h] at hopen
    simp at hopen
  · refine hnone pair ?_ (by omega)
    rw [pairs, pairsFrom_append]
    exact List.mem_append_left _ hpair

/-! ## Runs that close what they open -/

/-- The run leaves open exactly what was open in front of it. -/
def Neutral (bracket : Bracket) (run : Run) : Prop :=
  ∀ (opened : List Nat) (place : Nat), openFrom bracket opened place run = opened

theorem Neutral.append {front rest : Run} (hfront : Neutral bracket front)
    (hrest : Neutral bracket rest) : Neutral bracket (front ++ rest) := by
  intro opened place
  rw [openFrom_append, hfront, hrest]

/-- A run without brackets leaves open what was open. -/
theorem neutral_of_forall {run : Run}
    (h : ∀ token ∈ run, token.isMark bracket.opener = false ∧ token.isMark bracket.closer = false) :
    Neutral bracket run := by
  intro opened place
  induction run generalizing place with
  | nil => rfl
  | cons token run ih =>
    obtain ⟨hopener, hcloser⟩ := h token List.mem_cons_self
    rw [openFrom, hopener, hcloser]
    exact ih (fun token hmem => h token (List.mem_cons_of_mem _ hmem)) _

/-- No token both opens and closes. -/
theorem not_opener_of_closer {token : Token} (h : token.isMark bracket.closer = true) :
    token.isMark bracket.opener = false := by
  simp only [Token.isMark, beq_iff_eq] at h
  cases bracket <;> simp [Token.isMark, h, Bracket.opener, Bracket.closer]

theorem not_closer_of_opener {token : Token} (h : token.isMark bracket.opener = true) :
    token.isMark bracket.closer = false := by
  rw [Bool.eq_false_iff]
  exact fun hcloser => by simp [not_opener_of_closer hcloser] at h

/-! ## Counting finds what the stack finds -/

/-- In front of the closer that counting finds, only the inner brackets have been closed. -/
theorem openFrom_of_balanced {depth : Nat} {run body rest : Run}
    (h : run.balanced bracket depth = some (body, rest)) (inner outer : List Nat)
    (hinner : inner.length = depth) (place : Nat) :
    openFrom bracket (inner ++ outer) place body = outer := by
  induction run generalizing depth body inner place with
  | nil => simp [balanced] at h
  | cons token run ih =>
    rw [balanced] at h
    split at h
    · next hclose =>
      cases h
      rw [List.eq_nil_of_length_eq_zero (hinner.trans hclose.2)]
      rfl
    · next hclose =>
      obtain ⟨⟨body', rest'⟩, hbody, heq⟩ := Option.map_eq_some_iff.mp h
      cases heq
      rw [openFrom]
      by_cases hopener : token.isMark bracket.opener = true
      · -- the count and the inner part of the stack grow together
        rw [if_pos hopener] at hbody ⊢
        exact ih hbody (place :: inner) (by simp [hinner]) _
      · rw [if_neg hopener] at hbody ⊢
        by_cases hcloser : token.isMark bracket.closer = true
        · rw [if_pos hcloser] at hbody ⊢
          cases inner with
          | nil =>
            -- a closer at depth zero ends the body, so it does not stand in it
            exact absurd ⟨hcloser, hinner.symm⟩ hclose
          | cons innermost inner => exact ih hbody inner (by rw [← hinner]; simp) _
        · rw [if_neg hcloser] at hbody ⊢
          exact ih hbody inner hinner _

/-- A bracket with its body and its closer leaves open what was open. -/
theorem neutral_of_balanced {opener closer : Token} {tail body rest : Run}
    (hopener : opener.isMark bracket.opener = true)
    (hcloser : closer.isMark bracket.closer = true)
    (h : tail.balanced bracket 0 = some (body, rest)) :
    Neutral bracket (opener :: (body ++ [closer])) := by
  intro opened place
  rw [openFrom, if_pos hopener, openFrom_append]
  have hbody := openFrom_of_balanced h [] (place :: opened) rfl (place + 1)
  rw [List.nil_append] at hbody
  rw [hbody, openFrom, not_opener_of_closer hcloser, if_pos hcloser]
  rfl

/-- The closer that counting finds is the one that the stack gives to the opener. -/
theorem mem_pairs_of_balanced {before tail body rest : Run} {opener : Token}
    (hopener : opener.isMark bracket.opener = true)
    (h : tail.balanced bracket 0 = some (body, rest)) :
    (before.length, before.length + 1 + body.length)
      ∈ pairs bracket (before ++ opener :: tail) := by
  obtain ⟨closer, hcloser, rfl⟩ := balanced_eq h
  have hbody := openFrom_of_balanced h []
    (before.length :: openFrom bracket [] 0 before) rfl (before.length + 1)
  rw [List.nil_append] at hbody
  rw [pairs, pairsFrom_append, Nat.zero_add, pairsFrom, if_pos hopener, pairsFrom_append, hbody,
    pairsFrom, not_opener_of_closer hcloser, if_pos hcloser]
  simp

/-- An opener for which counting finds no closer keeps its place on the stack. -/
theorem ne_of_balanced_eq_none {depth n : Nat} {run : Run}
    (h : run.balanced bracket depth = none) (inner outer : List Nat)
    (hinner : inner.length = depth) (hn : n ∉ inner) {place : Nat} (hplace : n < place) :
    ∀ pair ∈ pairsFrom bracket (inner ++ n :: outer) place run, pair.1 ≠ n := by
  -- as many openers are above ours on the stack as counting has open
  induction run generalizing depth inner place with
  | nil => simp [pairsFrom]
  | cons token run ih =>
    rw [balanced] at h
    split at h
    · cases h
    · next hclose =>
      rw [Option.map_eq_none_iff] at h
      intro pair hpair
      rw [pairsFrom] at hpair
      by_cases hopener : token.isMark bracket.opener = true
      · rw [if_pos hopener] at h hpair
        refine ih h (place :: inner) (by simp [hinner]) ?_ (by omega) pair hpair
        rw [List.mem_cons, not_or]
        exact ⟨by omega, hn⟩
      · rw [if_neg hopener] at h hpair
        by_cases hcloser : token.isMark bracket.closer = true
        · rw [if_pos hcloser] at h hpair
          cases inner with
          | nil => exact absurd ⟨hcloser, hinner.symm⟩ hclose
          | cons innermost inner =>
            rw [List.mem_cons, not_or] at hn
            rcases List.mem_append.mp hpair with hpair | hpair
            · -- the closer takes the innermost opener, which is not ours
              have heq : pair = (innermost, place) := by simpa using hpair
              rw [heq]
              exact fun e => hn.1 e.symm
            · exact ih h inner (by rw [← hinner]; simp) hn.2 (by omega) pair hpair
        · rw [if_neg hcloser] at h hpair
          exact ih h inner hinner hn (by omega) pair hpair

/-- An opener for which counting finds no closer is never closed. -/
theorem unclosed_of_balanced_eq_none {before tail : Run} {opener : Token}
    (hopener : opener.isMark bracket.opener = true) (h : tail.balanced bracket 0 = none) :
    Unclosed bracket (before ++ opener :: tail) before.length := by
  refine ⟨⟨opener, by simp, hopener⟩, fun pair hpair => ?_⟩
  rw [pairs, pairsFrom_append, Nat.zero_add, pairsFrom, if_pos hopener, List.mem_append] at hpair
  rcases hpair with hpair | hpair
  · obtain ⟨⟨-, hlt⟩, hmem⟩ := bounds_of_mem_pairsFrom hpair
    simp only [List.not_mem_nil, false_or] at hmem
    omega
  · exact ne_of_balanced_eq_none h [] _ rfl List.not_mem_nil (Nat.lt_succ_self _) pair hpair

end Run

end SdlSchema
