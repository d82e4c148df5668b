/-
# Fields and arguments inside brackets

A body is read item by item, and a line that does not read as an item is passed over.  What
encloses an item was passed over in this way: the bracket does not stand in an item that was read,
and between the bracket and the name a line ended, at which reading went on.  So no argument and
no key of a default value is taken for an item as long as the item around it is read.  When that
item is not read, the lines inside its brackets are.

* `IsPair` : brackets that match, with nothing but matching brackets between them;
* `EncloserPassedOver` : what encloses an item stands in no item;
* `fields_and_arguments_encloserPassedOver` : so it is for fields and for arguments.
-/
import Mathlib.Data.List.Pairwise
import SdlSchema.Token.Tokenize
import SdlSchema.Proofs.Reading.Pairing
import SdlSchema.Proofs.Scanning.Trace

namespace SdlSchema

/-! ## Matching brackets of all kinds -/

/-- A bracket opens at the one place and is closed at the other, and the brackets between them match
each other. -/
structure Run.IsPair (run : Run) (bracket : Bracket) (opener closer : Nat) : Prop where
  opens : ∃ token, run[opener]? = some token ∧ token.isMark bracket.opener = true
  closes : ∃ token, run[closer]? = some token ∧ token.isMark bracket.closer = true
  before : opener < closer
  nested : Run.WellNested ((run.drop (opener + 1)).take (closer - (opener + 1)))

instance (run : Run) (bracket : Bracket) (opener closer : Nat) :
    Decidable (run.IsPair bracket opener closer) :=
  decidable_of_iff
    ((∃ token ∈ run[opener]?, token.isMark bracket.opener = true) ∧
      (∃ token ∈ run[closer]?, token.isMark bracket.closer = true) ∧ opener < closer ∧
        Run.WellNested ((run.drop (opener + 1)).take (closer - (opener + 1))))
    ⟨fun ⟨opens, closes, before, nested⟩ => ⟨opens, closes, before, nested⟩,
      fun ⟨opens, closes, before, nested⟩ => ⟨opens, closes, before, nested⟩⟩

/-! ## Items with their places -/

namespace Segment

variable {α : Type}

theorem le_start_of_mem_captures {place : Nat} {segments : List (Segment (Described α))}
    {capture : Capture α} (h : capture ∈ captures place segments) : place ≤ capture.start := by
  induction segments generalizing place with
  | nil => simp [captures] at h
  | cons segment segments ih =>
    cases segment with
    | passed run => exact (Nat.le_add_right _ _).trans (ih h)
    | item found run =>
      rcases List.mem_cons.mp h with rfl | h
      · exact Nat.le_refl _
      · exact (Nat.le_add_right _ _).trans (ih h)

/-- Items stand one behind the other. -/
theorem pairwise_captures (place : Nat) (segments : List (Segment (Described α))) :
    (captures place segments).Pairwise fun first second => first.stop ≤ second.start := by
  induction segments generalizing place with
  | nil => exact List.Pairwise.nil
  | cons segment segments ih =>
    cases segment with
    | passed run => exact ih _
    | item found run =>
      exact List.pairwise_cons.mpr ⟨fun capture hmem => le_start_of_mem_captures hmem, ih _⟩

/-- Of two items one stands behind the other. -/
theorem apart_of_mem_captures {place : Nat} {segments : List (Segment (Described α))}
    {first second : Capture α} (hfirst : first ∈ captures place segments)
    (hsecond : second ∈ captures place segments) (hne : first ≠ second) :
    first.stop ≤ second.start ∨ second.stop ≤ first.start := by
  have hsymm : Std.Symm fun first second : Capture α =>
      first.stop ≤ second.start ∨ second.stop ≤ first.start := ⟨fun _ _ => Or.symm⟩
  have hapart : (captures place segments).Pairwise fun first second =>
      first.stop ≤ second.start ∨ second.stop ≤ first.start :=
    (pairwise_captures place segments).imp Or.inl
  exact hapart.forall hfirst hsecond hne

end Segment

/-- The capture was read in the body at its place. -/
structure Capture.ReadIn {α : Type} (capture : Capture α) (reader : Reader (Described α))
    (body : Run) : Prop where
  start_le : capture.start ≤ capture.stop
  stop_le : capture.stop ≤ body.length
  read : reader.read (body.drop capture.start) = .ok (capture.found, body.drop capture.stop)

namespace Reader

variable {α : Type} {reader : Reader (Described α)} {separates resumes : Token → Bool}

/-- The items of a body with their places. -/
def itemCaptures (reader : Reader (Described α)) (separates resumes : Token → Bool) (body : Run) :
    List (Capture α) :=
  Segment.captures 0 (reader.segments separates resumes body)

theorem map_found_itemCaptures (body : Run) :
    (reader.itemCaptures separates resumes body).map Capture.found
      = reader.items separates resumes body :=
  Segment.map_found_captures 0 _

/-- An item was read at its place. -/
theorem readIn_of_mem_captures {run : Run} {capture : Capture α} : ∀ before : Run,
    capture ∈ Segment.captures before.length (reader.segments separates resumes run) →
      capture.ReadIn reader (before ++ run) := by
  fun_induction segments reader separates resumes run with
  | case1 run hrun => intro before h; simp [Segment.captures] at h
  | case2 run token tail hrun found rest hread ih =>
    intro before h
    have hsplit := List.takeWhile_append_dropWhile (p := separates) (l := run)
    revert h hsplit
    generalize run.takeWhile separates = blanks
    intro h hsplit
    -- an item was read behind the separators, and its tokens are those up to the rest
    have hitem := Run.upTo_append (reader.left hread).suffix
    have hstart : before ++ run = (before ++ blanks) ++ token :: tail := by
      rw [List.append_assoc, ← hrun, hsplit]
    have hstop : before ++ run = (before ++ blanks ++ Run.upTo (token :: tail) rest) ++ rest := by
      rw [List.append_assoc, hitem, hstart]
    rw [Segment.captures, Segment.captures, ← List.length_append, ← List.length_append] at h
    rcases List.mem_cons.mp h with rfl | h
    · refine ⟨Nat.le_trans (by simp) (Nat.le_refl _), ?_, ?_⟩
      · rw [hstop]
        simp
      · dsimp only
        rw [hstop, List.drop_left, ← hstop, hstart, List.drop_left]
        exact hread
    · rw [hstop]
      exact ih _ h
  | case3 run token tail hrun hread => intro before h; simp [Segment.captures] at h
  | case4 run token tail hrun hread ih =>
    intro before h
    have hsplit := List.takeWhile_append_dropWhile (p := separates) (l := run)
    -- a miss leaves nothing behind, so the item is one of those further on
    have htail := List.takeWhile_append_dropWhile (p := fun t => !resumes t) (l := tail)
    rw [Segment.captures, Segment.captures, ← List.length_append, ← List.length_append] at h
    have hbody : before ++ run = (before ++ run.takeWhile separates
        ++ token :: tail.takeWhile fun t => !resumes t) ++ tail.dropWhile fun t => !resumes t := by
      rw [List.append_assoc, List.cons_append, htail, List.append_assoc, ← hrun, hsplit]
    rw [hbody]
    exact ih _ h

/-- A token that does not separate items stands behind the separators. -/
theorem length_le_of_separators {before blanks rest : Run} {place : Nat} {token : Token}
    (hblanks : ∀ blank ∈ blanks, separates blank = true) (hseparates : separates token = false)
    (hle : before.length ≤ place) (htoken : (before ++ blanks ++ rest)[place]? = some token) :
    (before ++ blanks).length ≤ place := by
  by_contra hlt
  rw [List.getElem?_append_left (by omega), List.getElem?_append_right hle] at htoken
  have hmem := hblanks token (List.mem_of_getElem? htoken)
  rw [hseparates] at hmem
  cases hmem

/-- Nothing is read where nothing is left. -/
theorem captures_segments_nil (place : Nat) :
    Segment.captures place (reader.segments separates resumes []) = [] := by
  rw [segments]
  split
  · rfl
  · next hrun => simp at hrun

/-- A significant token in front of an item stands in an item itself, or the reading went on at a
token between them at which it may. -/
theorem inside_or_resumed {run : Run} {place : Nat} {token : Token} {capture : Capture α}
    (hseparates : separates token = false) : ∀ before : Run,
    capture ∈ Segment.captures before.length (reader.segments separates resumes run) →
    before.length ≤ place → place < capture.start → (before ++ run)[place]? = some token →
    (∃ other ∈ Segment.captures before.length (reader.segments separates resumes run),
        other.start ≤ place ∧ place < other.stop) ∨
      ∃ later next, place < later ∧ later ≤ capture.start ∧
        (before ++ run)[later]? = some next ∧ resumes next = true := by
  fun_induction segments reader separates resumes run with
  | case1 run hrun => intro before h; simp [Segment.captures] at h
  | case2 run first tail hrun found rest hread ih =>
    intro before h hle hlt htoken
    have hsplit := List.takeWhile_append_dropWhile (p := separates) (l := run)
    have hblanks : ∀ blank ∈ run.takeWhile separates, separates blank = true :=
      fun _ => List.mem_takeWhile_imp
    -- the separators in front are named, so that both lists of captures begin behind the same
    -- tokens
    revert h hsplit hblanks
    generalize run.takeWhile separates = blanks
    intro h hsplit hblanks
    have hitem := Run.upTo_append (reader.left hread).suffix
    have hbody : before ++ run
        = (before ++ blanks) ++ (Run.upTo (first :: tail) rest ++ rest) := by
      rw [List.append_assoc, hitem, ← hrun, hsplit]
    rw [hbody] at htoken ⊢
    have hplace := length_le_of_separators hblanks hseparates hle htoken
    rw [← List.append_assoc] at htoken ⊢
    rw [Segment.captures, Segment.captures, ← List.length_append, ← List.length_append] at h ⊢
    rcases List.mem_cons.mp h with rfl | h
    · exact absurd hplace (Nat.not_le_of_lt hlt)
    -- an item was read: the place is in it, or behind it
    by_cases hinside : place < (before ++ blanks ++ Run.upTo (first :: tail) rest).length
    · exact Or.inl ⟨_, List.mem_cons_self, hplace, hinside⟩
    · refine (ih _ h (Nat.le_of_not_lt hinside) hlt htoken).imp_left ?_
      rintro ⟨other, hother, hwithin⟩
      exact ⟨other, List.mem_cons_of_mem _ hother, hwithin⟩
  | case3 run first tail hrun hread => intro before h; simp [Segment.captures] at h
  | case4 run first tail hrun hread ih =>
    intro before h hle hlt htoken
    have hsplit := List.takeWhile_append_dropWhile (p := separates) (l := run)
    have hblanks : ∀ blank ∈ run.takeWhile separates, separates blank = true :=
      fun _ => List.mem_takeWhile_imp
    revert h hsplit hblanks
    generalize run.takeWhile separates = blanks
    intro h hsplit hblanks
    have htail := List.takeWhile_append_dropWhile (p := fun t => !resumes t) (l := tail)
    have hhead := List.head?_dropWhile_not (fun t => !resumes t) tail
    revert h htail hhead ih
    generalize (tail.takeWhile fun t => !resumes t) = passed
    generalize (tail.dropWhile fun t => !resumes t) = rest
    intro ih h htail hhead
    -- a miss: the tokens up to one at which reading resumes are passed over
    have hbody : before ++ run = (before ++ blanks) ++ ((first :: passed) ++ rest) := by
      rw [List.append_assoc, List.cons_append, htail, ← hrun, hsplit]
    rw [hbody] at htoken ⊢
    have hplace := length_le_of_separators hblanks hseparates hle htoken
    rw [← List.append_assoc] at htoken ⊢
    rw [Segment.captures, Segment.captures, ← List.length_append, ← List.length_append] at h ⊢
    -- a place among them has that token behind it, and so in front of the item
    by_cases hpassed : place < (before ++ blanks ++ first :: passed).length
    · cases rest with
      | nil => simp [captures_segments_nil] at h
      | cons next rest =>
        have hresumes : resumes next = true := by simpa using hhead
        refine Or.inr ⟨_, next, hpassed, Segment.le_start_of_mem_captures h, ?_, hresumes⟩
        rw [List.getElem?_append_right (Nat.le_refl _), Nat.sub_self]
        rfl
    · exact ih _ h (Nat.le_of_not_lt hpassed) hlt htoken

end Reader

/-! ## What encloses an item -/

/-- Each item begins, behind its description, with its name; and a pair of brackets around that name
opens in no item, with a token behind the opener at which reading goes on after a miss. -/
def EncloserPassedOver {α : Type} (captures : List (Capture α)) (name : α → String)
    (resumes : Token → Bool) (body : Run) : Prop :=
  ∀ capture ∈ captures,
    (∃ token, body[capture.keyword body]? = some token ∧ token.isName = true ∧
      token.word = name capture.found.item) ∧
    ∀ bracket opener closer, body.IsPair bracket opener closer →
      opener < capture.keyword body → capture.keyword body < closer →
      (∀ other ∈ captures, ¬ (other.start ≤ opener ∧ opener < other.stop)) ∧
        ∃ place token, opener < place ∧ place < capture.keyword body ∧
          body[place]? = some token ∧ resumes token = true

/-- The reader reads a name first, and closes inside what it opens. -/
structure Reader.IsItem {α : Type} (reader : Reader α) (name : α → String) : Prop where
  named : ∀ {run rest : Run} {item : α}, reader.read run = .ok (item, rest) →
    ∃ token tail, run = token :: tail ∧ token.isName = true ∧ token.word = name item
  closes : ∀ {run rest : Run} {item : α}, reader.read run = .ok (item, rest) →
    ClosesOver rest run

namespace Capture.ReadIn

variable {α : Type} {reader : Reader α} {name : α → String} {body : Run} {capture : Capture α}

/-- In front of the name of an item only its description stands, and no bracket. -/
theorem keyword_of_isItem (h : capture.ReadIn reader.described body)
    (hreader : reader.IsItem name) :
    ∃ front token tail, body.drop capture.start = front ++ token :: tail ∧
      capture.keyword body = capture.start + front.length ∧
      (∀ token ∈ front, token.opensBracket = false) ∧
      token.isName = true ∧ token.word = name capture.found.item := by
  obtain ⟨token, tail, htail, hname, hword⟩ :=
    hreader.named (Reader.described_read_eq_ok.mp h.read).2
  obtain ⟨front, hsplit, hfront⟩ := OpensNone.acceptDescription (body.drop capture.start)
  refine ⟨front, token, tail, htail ▸ hsplit, ?_, hfront, hname, hword⟩
  have hlength := congrArg List.length hsplit
  rw [List.length_drop, List.length_append] at hlength
  have hle := h.start_le
  have hstop := h.stop_le
  rw [keyword]
  omega

/-- What opens in front of the name of an item opens in front of the item. -/
theorem opener_lt_start (h : capture.ReadIn reader.described body) (hreader : reader.IsItem name)
    {opener : Nat} {token : Token} (htoken : body[opener]? = some token)
    (hopens : token.opensBracket = true) (hopener : opener < capture.keyword body) :
    opener < capture.start := by
  obtain ⟨description, word, tail, hsplit, hkeyword, hdescription, -⟩ :=
    h.keyword_of_isItem hreader
  by_contra hle
  have hmem : (body.drop capture.start)[opener - capture.start]? = some token := by
    rw [List.getElem?_drop, ← htoken]
    congr 1
    omega
  rw [hsplit, List.getElem?_append_left (by omega)] at hmem
  rw [hdescription token (List.mem_of_getElem? hmem)] at hopens
  cases hopens

/-- Brackets that open in an item and match are closed in it. -/
theorem closer_lt_stop (h : capture.ReadIn reader.described body) (hreader : reader.IsItem name)
    {bracket : Bracket} {opener closer : Nat} (hpair : body.IsPair bracket opener closer)
    (hstart : capture.start ≤ opener) (hstop : opener < capture.stop) : closer < capture.stop := by
  obtain ⟨last, hlast, -⟩ := hpair.closes
  have hcloser := (List.getElem?_eq_some_iff.mp hlast).1
  obtain ⟨item, hsplit, hitem⟩ := (hreader.closes (Reader.described_read_eq_ok.mp h.read).2).trans
    (OpensNone.acceptDescription _).closesOver
  have hlength := congrArg List.length hsplit
  rw [List.length_append, List.length_drop, List.length_drop] at hlength
  have hle := h.stop_le
  rcases hitem with hnil | hitem
  · have hend := List.drop_eq_nil_iff.mp hnil
    omega
  by_contra hbeyond
  obtain ⟨token, htoken, hopens⟩ := hpair.opens
  have hplace : (item ++ body.drop capture.stop)[opener - capture.start]? = some token := by
    rw [← hsplit, List.getElem?_drop, ← htoken]
    congr 1
    omega
  rw [List.getElem?_append_left (by omega)] at hplace
  obtain ⟨hlt, hget⟩ := List.getElem?_eq_some_iff.mp hplace
  have hitemSplit : item = item.take (opener - capture.start) ++
      token :: item.drop (opener - capture.start + 1) := by
    rw [← hget, List.getElem_cons_drop, List.take_append_drop]
  obtain ⟨front, ⟨after, hafter⟩, hoverclosed⟩ :=
    hitem _ token _ hitemSplit (Token.opensBracket_of_isMark hopens)
  -- the item ends between the brackets, behind more closers than openers
  have hbehind : body.drop (opener + 1) = front ++ (after ++ body.drop capture.stop) := by
    have hdrop : body.drop (opener + 1)
        = (body.drop capture.start).drop (opener - capture.start + 1) := by
      rw [List.drop_drop]
      congr 1
      omega
    rw [hdrop, hsplit, List.drop_append_of_le_length (by omega), ← hafter, List.append_assoc]
  have hfront := congrArg List.length hafter
  rw [List.length_append, List.length_drop] at hfront
  have hnested := hpair.nested
  rw [hbehind, List.take_append, List.take_of_length_le (by omega)] at hnested
  exact Run.not_wellNested_of_overclosed hoverclosed _ hnested

end Capture.ReadIn

namespace Reader.IsItem

variable {α : Type} {reader : Reader α} {name : α → String} {separates resumes : Token → Bool}

/-- Brackets around the name of an item open in no item. -/
theorem not_opener_within (hreader : reader.IsItem name) {body : Run} {capture other : Capture α}
    (hcapture : capture ∈ reader.described.itemCaptures separates resumes body)
    (hother : other ∈ reader.described.itemCaptures separates resumes body)
    {bracket : Bracket} {opener closer : Nat} (hpair : body.IsPair bracket opener closer)
    (hfront : opener < capture.start) (hcloser : capture.keyword body < closer) :
    ¬ (other.start ≤ opener ∧ opener < other.stop) := by
  rintro ⟨hstart, hstop⟩
  have hread : capture.ReadIn reader.described body := Reader.readIn_of_mem_captures [] hcapture
  have hotherRead : other.ReadIn reader.described body := Reader.readIn_of_mem_captures [] hother
  obtain ⟨_, _, _, -, hkeyword, -⟩ := hread.keyword_of_isItem hreader
  have hclosed := hotherRead.closer_lt_stop hreader hpair hstart hstop
  have hle := hread.start_le
  have hne : capture ≠ other := by
    rintro rfl
    omega
  -- an item behind the name opens no bracket in front of it, one in front closes what it opens
  rcases Segment.apart_of_mem_captures hcapture hother hne with hbehind | hbefore <;> omega

theorem encloserPassedOver (hreader : reader.IsItem name)
    (hseparates : ∀ token, separates token = true → token.opensBracket = false)
    (hresumes : ∀ token, resumes token = true → token.isName = false) (body : Run) :
    EncloserPassedOver (reader.described.itemCaptures separates resumes body) name resumes
      body := by
  intro capture hcapture
  have hread : capture.ReadIn reader.described body := Reader.readIn_of_mem_captures [] hcapture
  obtain ⟨description, word, tail, hsplit, hkeyword, -, hname, hword⟩ :=
    hread.keyword_of_isItem hreader
  have hplace : body[capture.keyword body]? = some word := by
    rw [hkeyword, ← List.getElem?_drop, hsplit, List.getElem?_append_right (Nat.le_refl _),
      Nat.sub_self]
    rfl
  refine ⟨⟨word, hplace, hname, hword⟩, fun bracket opener closer hpair hopener hcloser => ?_⟩
  obtain ⟨token, htoken, hopens⟩ := hpair.opens
  have hopens := Token.opensBracket_of_isMark hopens
  have hfront := hread.opener_lt_start hreader htoken hopens hopener
  have houtside : ∀ other ∈ reader.described.itemCaptures separates resumes body,
      ¬ (other.start ≤ opener ∧ opener < other.stop) :=
    fun other hother => hreader.not_opener_within hcapture hother hpair hfront hcloser
  refine ⟨houtside, ?_⟩
  have hsignificant : separates token = false := by
    by_contra hseparator
    rw [hseparates token (by simpa using hseparator)] at hopens
    cases hopens
  rcases Reader.inside_or_resumed hsignificant [] hcapture (Nat.zero_le _) hfront htoken with
    ⟨other, hother, hwithin⟩ | ⟨place, next, hlt, hle, hnext, hresume⟩
  · exact absurd hwithin (houtside other hother)
  · refine ⟨place, next, hlt, ?_, hnext, hresume⟩
    -- reading goes on at no name
    have hne : place ≠ capture.keyword body := by
      rintro rfl
      rw [List.nil_append, hplace] at hnext
      cases hnext
      rw [hresumes word hresume] at hname
      cases hname
    omega

end Reader.IsItem

/-! ## Fields and arguments -/

/-- The fields of a body with their places. -/
def fieldCaptures (body : Run) : List (Capture FieldLine) :=
  FieldLine.reader.described.itemCaptures Token.isSeparator Token.isNewline body

/-- The arguments of a body with their places. -/
def argumentCaptures (body : Run) : List (Capture ArgumentLine) :=
  ArgumentLine.reader.described.itemCaptures Token.isSeparator
    (fun token => token.isNewline || token.isMark .comma) body

theorem map_found_fieldCaptures (body : Run) :
    (fieldCaptures body).map Capture.found = fieldLines body := Reader.map_found_itemCaptures body

theorem map_found_argumentCaptures (body : Run) :
    (argumentCaptures body).map Capture.found = argumentLines body :=
  Reader.map_found_itemCaptures body

theorem FieldLine.isItem_reader : FieldLine.reader.IsItem fun line => line.name where
  named h := by
    obtain ⟨⟨name, afterName⟩, hname, h⟩ := bind_eq_ok.mp h
    obtain ⟨⟨arguments, afterArguments⟩, harguments, h⟩ := bind_eq_ok.mp h
    obtain ⟨⟨line, afterLine⟩, hline, h⟩ := bind_eq_ok.mp h
    cases h
    obtain ⟨token, hrun, htoken, hword⟩ := Run.expectName_eq_ok hname
    exact ⟨token, afterName, hrun, htoken, hword.symm⟩
  closes := FieldLine.closesOver_reader

theorem ArgumentLine.isItem_reader : ArgumentLine.reader.IsItem fun line => line.name where
  named h := by
    obtain ⟨⟨name, afterName⟩, hname, h⟩ := bind_eq_ok.mp h
    obtain ⟨⟨line, afterLine⟩, hline, h⟩ := bind_eq_ok.mp h
    cases h
    obtain ⟨token, hrun, htoken, hword⟩ := Run.expectName_eq_ok hname
    exact ⟨token, afterName, hrun, htoken, hword.symm⟩
  closes := ArgumentLine.closesOver_reader

theorem Token.isName_of_isNewline {token : Token} (h : token.isNewline = true) :
    token.isName = false := by
  by_contra hname
  rw [(Token.of_isName (by simpa using hname)).2.2.2.1] at h
  cases h

/-- **What encloses a field or an argument was passed over.**  Brackets that match, with matching
brackets between them, are around the name of a field only if they open in a line that was passed
over, in no field that was read, and a line break at which reading went on stands between the
opener and the name.  So it is for arguments, whose reading goes on at a comma too. -/
theorem fields_and_arguments_encloserPassedOver (body : Run) :
    EncloserPassedOver (fieldCaptures body) (fun line => line.name) Token.isNewline body ∧
    EncloserPassedOver (argumentCaptures body) (fun line => line.name)
      (fun token => token.isNewline || token.isMark .comma) body := by
  refine ⟨FieldLine.isItem_reader.encloserPassedOver
      (fun _ => Token.opensBracket_of_isSeparator) (fun _ => Token.isName_of_isNewline) body,
    ArgumentLine.isItem_reader.encloserPassedOver
      (fun _ => Token.opensBracket_of_isSeparator) (fun token htoken => ?_) body⟩
  rcases Bool.or_eq_true_iff.mp htoken with hnewline | hcomma
  · exact Token.isName_of_isNewline hnewline
  · by_contra hname
    rw [(Token.of_isName (by simpa using hname)).2.2.2.2.2] at hcomma
    cases hcomma

/-- An argument of a field without a type is read as a field: in front of it the reading went on at
the line break behind the opener. -/
theorem encloserPassedOver_argument_line :
    ∃ capture ∈ fieldCaptures (Run.ofString "f(\nx: Int\n)"),
      (Run.ofString "f(\nx: Int\n)").IsPair .paren 1 8 ∧
        1 < capture.keyword (Run.ofString "f(\nx: Int\n)") ∧
        capture.keyword (Run.ofString "f(\nx: Int\n)") < 8 ∧
        ∃ place token, 1 < place ∧ place < capture.keyword (Run.ofString "f(\nx: Int\n)") ∧
          (Run.ofString "f(\nx: Int\n)")[place]? = some token ∧ token.isNewline = true := by
  have hpair : (Run.ofString "f(\nx: Int\n)").IsPair .paren 1 8 := by decide +kernel
  have hfound : ∃ capture ∈ fieldCaptures (Run.ofString "f(\nx: Int\n)"),
      1 < capture.keyword (Run.ofString "f(\nx: Int\n)") ∧
        capture.keyword (Run.ofString "f(\nx: Int\n)") < 8 := by decide +kernel
  obtain ⟨capture, hcapture, hopener, hcloser⟩ := hfound
  exact ⟨capture, hcapture, hpair, hopener, hcloser,
    (((fields_and_arguments_encloserPassedOver _).1 capture hcapture).2 .paren 1 8 hpair hopener
      hcloser).2⟩

/-- The lines of brackets whose item is not read are read as items: an argument as a field, and what
stands between braces as an argument.  Brackets that cross are matched by neither field. -/
theorem enclosed_fields_and_arguments :
    (∃ capture ∈ fieldCaptures (Run.ofString "f(\nx: Int\n)"),
      capture.found.item.name = "x" ∧
        (Run.ofString "f(\nx: Int\n)").IsPair .paren 1 8 ∧
        1 < capture.keyword (Run.ofString "f(\nx: Int\n)") ∧
        capture.keyword (Run.ofString "f(\nx: Int\n)") < 8) ∧
    (∃ capture ∈ argumentCaptures (Run.ofString "bad \x7b\n y: Int\n\x7d"),
      capture.found.item.name = "y" ∧
        (Run.ofString "bad \x7b\n y: Int\n\x7d").IsPair .brace 2 10 ∧
        2 < capture.keyword (Run.ofString "bad \x7b\n y: Int\n\x7d") ∧
        capture.keyword (Run.ofString "bad \x7b\n y: Int\n\x7d") < 10) ∧
    ∃ capture ∈ fieldCaptures (Run.ofString "a(x: [): Int\ny: Int\nb(z: ]): Int"),
      capture.found.item.name = "y" ∧
        (Run.ofString "a(x: [): Int\ny: Int\nb(z: ]): Int").Enclosed .square
          (capture.keyword (Run.ofString "a(x: [): Int\ny: Int\nb(z: ]): Int")) := by
  decide +kernel

end SdlSchema
