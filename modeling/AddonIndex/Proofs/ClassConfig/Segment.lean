import AddonIndex.ClassConfig.Macro
import Mathlib.Algebra.Ring.Parity
import Mathlib.Data.List.Basic

/-!
# The segments of a line

A line falls into identifiers, number literals, string literals and other characters, in one way only. A run of
identifier characters is a number literal if it begins with a digit, whatever follows, and an identifier otherwise; a
string literal whose last quote is missing goes on to the end of the line. The scanner for macros finds the
identifiers among these segments, and nothing else.
-/

namespace AddonIndex.ClassConfig

/-- A segment of a line. -/
inductive Segment
  | word (name : Text)
  /-- A number literal with its suffixes. -/
  | number (digits : Text)
  /-- What stands between two quotes. -/
  | quoted (content : Text)
  /-- What stands after a quote that is the last one. -/
  | unclosed (content : Text)
  /-- Any other character. -/
  | mark (c : Char)
deriving DecidableEq, Repr

/-- The text of a segment. -/
def Segment.text : Segment → Text
  | word name => name
  | number digits => digits
  | quoted content => '"' :: (content ++ ['"'])
  | unclosed content => '"' :: content
  | mark c => [c]

/-- Whether a text is a run of identifier characters, and whether the first of them is a digit. -/
def IsRun (startsWithDigit : Bool) (run : Text) : Prop :=
  (∃ c, run.head? = some c ∧ c.isDigit = startsWithDigit) ∧ ∀ c ∈ run, isIdentifierChar c = true

/-- Whether a run of identifier characters does not go on with a text. -/
def EndsRun (rest : Text) : Prop := ∀ c, rest.head? = some c → isIdentifierChar c = false

/-- Whether a line falls into segments. -/
inductive Divides : List Segment → Text → Prop
  | nil : Divides [] []
  | word {name rest : Text} {segments : List Segment} (isRun : IsRun false name) (ends : EndsRun rest)
      (later : Divides segments rest) : Divides (.word name :: segments) (name ++ rest)
  | number {digits rest : Text} {segments : List Segment} (isRun : IsRun true digits) (ends : EndsRun rest)
      (later : Divides segments rest) : Divides (.number digits :: segments) (digits ++ rest)
  | quoted {content rest : Text} {segments : List Segment} (inside : '"' ∉ content)
      (later : Divides segments rest) : Divides (.quoted content :: segments) ('"' :: (content ++ '"' :: rest))
  | unclosed {content : Text} (inside : '"' ∉ content) : Divides [.unclosed content] ('"' :: content)
  | mark {c : Char} {rest : Text} {segments : List Segment} (other : isIdentifierChar c = false) (noQuote : c ≠ '"')
      (later : Divides segments rest) : Divides (.mark c :: segments) (c :: rest)

variable {line rest run : Text} {segments others : List Segment} {startsWithDigit : Bool}

theorem isIdentifierChar_quote : isIdentifierChar '"' = false := by decide

/-- A run begins with an identifier character. -/
theorem IsRun.exists_cons (isRun : IsRun startsWithDigit run) :
    ∃ c more, run = c :: more ∧ c.isDigit = startsWithDigit ∧ isIdentifierChar c = true ∧
      ∀ other ∈ more, isIdentifierChar other = true := by
  obtain ⟨⟨c, first, digit⟩, all⟩ := isRun
  obtain ⟨more, rfl⟩ := List.head?_eq_some_iff.1 first
  rcases List.forall_mem_cons.1 all with ⟨identifier, all⟩
  exact ⟨c, more, rfl, digit, identifier, all⟩

theorem endsRun_cons {c : Char} (other : isIdentifierChar c = false) : EndsRun (c :: rest) := by
  rintro _ ⟨⟩
  exact other

/-- The segments of a line make up the line. -/
theorem Divides.flatMap_text (divides : Divides segments line) : segments.flatMap Segment.text = line := by
  induction divides with
  | nil => rfl
  | word _ _ _ ih => rw [List.flatMap_cons, ih, Segment.text]
  | number _ _ _ ih => rw [List.flatMap_cons, ih, Segment.text]
  | quoted _ _ ih => simp [List.flatMap_cons, ih, Segment.text]
  | unclosed => simp [Segment.text]
  | mark _ _ _ ih => simp [List.flatMap_cons, ih, Segment.text]

/-! ## One way only -/

/-- The first segment of a line, and the rest of the line. -/
def nextSegment? : Text → Option (Segment × Text)
  | [] => none
  | c :: rest =>
      if isIdentifierChar c then
        let run := c :: rest.takeWhile isIdentifierChar
        some (if c.isDigit then .number run else .word run, rest.dropWhile isIdentifierChar)
      else if c = '"' then
        match rest.dropWhile (· ≠ '"') with
        | [] => some (.unclosed rest, [])
        | _ :: others => some (.quoted (rest.takeWhile (· ≠ '"')), others)
      else some (.mark c, rest)

/-- Characters of a kind are split off where another one follows. -/
theorem span_append {kind : Char → Bool} (all : ∀ c ∈ run, kind c = true) (rest : Text)
    (stops : ∀ c, rest.head? = some c → kind c = false) :
    (run ++ rest).takeWhile kind = run ∧ (run ++ rest).dropWhile kind = rest := by
  rw [List.takeWhile_append_of_pos all, List.dropWhile_append_of_pos all]
  cases rest with
  | nil => simp
  | cons c rest => simp [stops c rfl]

theorem nextSegment?_run (isRun : IsRun startsWithDigit run) (ends : EndsRun rest) :
    nextSegment? (run ++ rest) = some (if startsWithDigit then .number run else .word run, rest) := by
  obtain ⟨c, more, rfl, digit, identifier, all⟩ := isRun.exists_cons
  obtain ⟨takes, drops⟩ := span_append all _ ends
  rw [List.cons_append, nextSegment?, if_pos identifier, takes, drops, digit]

theorem ne_quote {content : Text} (inside : '"' ∉ content) : ∀ c ∈ content, decide (c ≠ '"') = true := by
  intro c member
  exact decide_eq_true fun isQuote => inside (isQuote ▸ member)

/-- The first segment of a line is the first one that the line falls into. -/
theorem Divides.next {segment : Segment} (divides : Divides (segment :: segments) line) :
    ∃ rest, nextSegment? line = some (segment, rest) ∧ Divides segments rest := by
  cases divides with
  | word isRun ends later => exact ⟨_, nextSegment?_run isRun ends, later⟩
  | number isRun ends later => exact ⟨_, nextSegment?_run isRun ends, later⟩
  | @quoted content rest _ inside later =>
      refine ⟨rest, ?_, later⟩
      obtain ⟨takes, drops⟩ := span_append (ne_quote inside) ('"' :: rest) (by simp)
      simp only [nextSegment?, isIdentifierChar_quote, Bool.false_eq_true, if_false, if_true, drops, takes]
  | @unclosed content inside =>
      refine ⟨[], ?_, .nil⟩
      obtain ⟨takes, drops⟩ := span_append (ne_quote inside) [] (by simp)
      rw [List.append_nil] at drops
      simp only [nextSegment?, isIdentifierChar_quote, Bool.false_eq_true, if_false, if_true, drops]
  | mark other noQuote later =>
      refine ⟨_, ?_, later⟩
      rw [nextSegment?, if_neg (Bool.eq_false_iff.1 other), if_neg noQuote]

/-- A line falls into segments in one way only. -/
theorem Divides.unique (divides : Divides segments line) (otherwise : Divides others line) : segments = others := by
  induction segments generalizing others line with
  | nil =>
      cases divides
      cases others with
      | nil => rfl
      | cons =>
          obtain ⟨rest, next, -⟩ := otherwise.next
          cases next
  | cons segment segments ih =>
      obtain ⟨rest, next, later⟩ := divides.next
      cases others with
      | nil =>
          cases otherwise
          cases next
      | cons =>
          obtain ⟨_, otherNext, otherLater⟩ := otherwise.next
          rw [next] at otherNext
          cases otherNext
          rw [ih later otherLater]

/-- Every line falls into segments. -/
theorem exists_divides (line : Text) : ∃ segments, Divides segments line := by
  induction size : line.length using Nat.strong_induction_on generalizing line with
  | _ size ih =>
  subst size
  cases line with
  | nil => exact ⟨[], .nil⟩
  | cons c rest =>
      by_cases identifier : isIdentifierChar c = true
      · -- The run goes on as long as there are identifier characters.
        have shorter : (rest.dropWhile isIdentifierChar).length < (c :: rest).length :=
          Nat.lt_succ_of_le (List.dropWhile_sublist _).length_le
        obtain ⟨segments, later⟩ := ih _ shorter _ rfl
        have ends : EndsRun (rest.dropWhile isIdentifierChar) := by
          intro other first
          have stops := List.head?_dropWhile_not isIdentifierChar rest
          rwa [first] at stops
        have isRun : IsRun c.isDigit (c :: rest.takeWhile isIdentifierChar) :=
          ⟨⟨c, rfl, rfl⟩, List.forall_mem_cons.2 ⟨identifier, List.all_eq_true.1 List.all_takeWhile⟩⟩
        have whole : c :: rest = (c :: rest.takeWhile isIdentifierChar) ++ rest.dropWhile isIdentifierChar := by
          rw [List.cons_append, List.takeWhile_append_dropWhile]
        rw [whole]
        cases digit : c.isDigit with
        | true => exact ⟨_, .number (digit ▸ isRun) ends later⟩
        | false => exact ⟨_, .word (digit ▸ isRun) ends later⟩
      by_cases isQuote : c = '"'
      · subst isQuote
        by_cases inside : '"' ∈ rest
        · obtain ⟨content, others, rfl, first⟩ := List.eq_append_cons_of_mem inside
          obtain ⟨segments, later⟩ := ih others.length (by simp; omega) others rfl
          exact ⟨_, .quoted first later⟩
        · exact ⟨_, .unclosed inside⟩
      · obtain ⟨segments, later⟩ := ih rest.length (Nat.lt_succ_self _) rest rfl
        exact ⟨_, .mark (Bool.eq_false_iff.2 identifier) isQuote later⟩

/-! ## Lines beside each other -/

theorem EndsRun.append {more : Text} (ends : EndsRun line) (moreEnds : EndsRun more) : EndsRun (line ++ more) := by
  cases line with
  | nil => exact moreEnds
  | cons c rest => exact endsRun_cons (ends c rfl)

/-- A line without an open string literal falls into its segments also before another line that does not go on with
its last run. -/
theorem Divides.append {more : Text} (divides : Divides segments line)
    (closed : ∀ content, .unclosed content ∉ segments) (otherDivides : Divides others more) (ends : EndsRun more) :
    Divides (segments ++ others) (line ++ more) := by
  induction divides with
  | nil => exact otherDivides
  | word isRun runEnds _ ih =>
      rw [List.append_assoc]
      exact .word isRun (runEnds.append ends) (ih fun content member => closed content (List.mem_cons_of_mem _ member))
  | number isRun runEnds _ ih =>
      rw [List.append_assoc]
      exact .number isRun (runEnds.append ends) (ih fun content member => closed content (List.mem_cons_of_mem _ member))
  | quoted inside _ ih =>
      have later := ih fun content member => closed content (List.mem_cons_of_mem _ member)
      simpa using Divides.quoted inside later
  | @unclosed content _ => exact absurd List.mem_cons_self (closed content)
  | mark other noQuote _ ih =>
      exact .mark other noQuote (ih fun content member => closed content (List.mem_cons_of_mem _ member))

theorem IsRun.count_quote (isRun : IsRun startsWithDigit run) : run.count '"' = 0 := by
  apply List.count_eq_zero.2
  intro member
  have identifier := isRun.2 _ member
  rw [isIdentifierChar_quote] at identifier
  cases identifier

/-- In a line with an even number of quotes no string literal is left open. -/
theorem Divides.closed_of_even (divides : Divides segments line) (even : Even (line.count '"')) :
    ∀ content, .unclosed content ∉ segments := by
  induction divides with
  | nil => simp
  | word isRun _ _ ih =>
      rw [List.count_append, isRun.count_quote, Nat.zero_add] at even
      simpa using ih even
  | number isRun _ _ ih =>
      rw [List.count_append, isRun.count_quote, Nat.zero_add] at even
      simpa using ih even
  | @quoted content rest _ inside _ ih =>
      rw [List.count_cons_self, List.count_append, List.count_cons_self, List.count_eq_zero.2 inside] at even
      have evenRest : Even (rest.count '"') := by simpa [Nat.even_add_one] using even
      simpa using ih evenRest
  | unclosed inside =>
      rw [List.count_cons_self, List.count_eq_zero.2 inside] at even
      exact absurd even (by decide)
  | mark _ noQuote _ ih =>
      rw [List.count_cons_of_ne noQuote] at even
      simpa using ih even

/-! ## The scanner -/

/-- What the scanner for identifiers makes of a segment. -/
def Segment.pieces : Segment → List Piece
  | word name => [.identifier name]
  | segment => segment.text.map Piece.verbatim

theorem piecesFrom_identifier (all : ∀ c ∈ run, isIdentifierChar c = true) (start rest : Text) :
    piecesFrom (.identifier start) (run ++ rest) = piecesFrom (.identifier (start ++ run)) rest := by
  induction run generalizing start with
  | nil => rw [List.nil_append, List.append_nil]
  | cons c run ih =>
      rcases List.forall_mem_cons.1 all with ⟨identifier, all⟩
      rw [List.cons_append, piecesFrom, if_pos identifier]
      simpa using ih all (start ++ [c])

theorem piecesFrom_number (all : ∀ c ∈ run, isIdentifierChar c = true) (rest : Text) :
    piecesFrom .number (run ++ rest) = run.map .verbatim ++ piecesFrom .number rest := by
  induction run with
  | nil => rfl
  | cons c run ih =>
      rcases List.forall_mem_cons.1 all with ⟨identifier, all⟩
      rw [List.cons_append, piecesFrom, if_pos identifier, ih all]
      rfl

theorem piecesFrom_string {content : Text} (inside : '"' ∉ content) (rest : Text) :
    piecesFrom .string (content ++ rest) = content.map .verbatim ++ piecesFrom .string rest := by
  induction content with
  | nil => rfl
  | cons c content ih =>
      simp only [List.mem_cons, not_or] at inside
      rcases inside with ⟨other, inside⟩
      rw [List.cons_append, piecesFrom, if_neg (Ne.symm other), ih inside]
      rfl

/-- Where a run ends, what was read of it is given out. -/
theorem piecesFrom_of_endsRun {mode : PieceMode} (outside : mode ≠ .string) (ends : EndsRun rest) :
    piecesFrom mode rest = mode.flush ++ pieces rest := by
  unfold pieces
  cases rest with
  | nil => cases mode <;> simp [piecesFrom, PieceMode.flush]
  | cons c rest => cases mode <;> simp_all [piecesFrom, PieceMode.flush, ends c rfl]

/-- The scanner gives out the identifiers among the segments of a line, and everything else character by character. -/
theorem Divides.pieces_eq (divides : Divides segments line) : pieces line = segments.flatMap Segment.pieces := by
  induction divides with
  | nil => rfl
  | word isRun ends _ ih =>
      obtain ⟨c, more, rfl, digit, identifier, all⟩ := isRun.exists_cons
      have scanned := (piecesFrom_identifier all [c] _).trans (piecesFrom_of_endsRun (by simp) ends)
      simpa [pieces, piecesFrom, identifier, digit, ← ih, Segment.pieces, PieceMode.flush] using scanned
  | number isRun ends _ ih =>
      obtain ⟨c, more, rfl, digit, identifier, all⟩ := isRun.exists_cons
      have scanned := @piecesFrom_of_endsRun _ .number (by simp) ends
      simpa [pieces, piecesFrom, identifier, digit, ← ih, Segment.pieces, Segment.text, PieceMode.flush]
        using (piecesFrom_number all _).trans (congrArg _ scanned)
  | quoted inside _ ih =>
      simp [pieces, piecesFrom, isIdentifierChar_quote, piecesFrom_string inside, ← ih, Segment.pieces, Segment.text,
        PieceMode.flush]
  | unclosed inside =>
      have scanned := piecesFrom_string inside []
      rw [List.append_nil] at scanned
      simp [pieces, piecesFrom, isIdentifierChar_quote, scanned, Segment.pieces, Segment.text, PieceMode.flush]
  | mark other noQuote _ ih =>
      simp [pieces, piecesFrom, other, noQuote, ← ih, Segment.pieces, Segment.text, PieceMode.flush]

end AddonIndex.ClassConfig
