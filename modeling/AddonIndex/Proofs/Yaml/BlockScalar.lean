import AddonIndex.Proofs.Yaml.InlineScalar
import Mathlib.Data.List.Basic

/-!
# Block scalars read back

A block keeps its lines as they are, behind two spaces. What becomes of the line breaks at its end is told by a mark,
and a digit tells the indentation where the first line begins with a gap, so that it cannot be seen.
-/

namespace AddonIndex.Yaml

variable {c : Char} {text rest more : Text} {state : BlockState} {chomping : Chomping}

/-! ## What was read last -/

namespace BlockState

/-- What was read before the first line. -/
def start : BlockState := margin false [] [] 0

/-- Whether a line begins. -/
def atLineStart : BlockState → Bool
  | line _ => false
  | margin .. => true

/-- Whether no space of a new line was passed over. -/
def AtEdge : BlockState → Prop
  | line _ => True
  | margin _ _ _ column => column = 0

/-- The line breaks since the last line. -/
def breaks : BlockState → Text
  | line _ => []
  | margin _ lineEnd emptyLines _ => lineEnd ++ emptyLines

/-- What was read last after one more character of the text. -/
def next (state : BlockState) (c : Char) : BlockState :=
  match state with
  | line indented => if isBreak c then margin indented [c] [] 0 else line indented
  | margin indented lineEnd emptyLines _ =>
      if isBreak c then margin indented lineEnd (emptyLines ++ [c]) 0 else line (isBlank c)

/-- Whether a mark leaves of the line breaks at the end what belongs to the text. After the last line a line feed is
written that does not. -/
def Settled (chomping : Chomping) (state : BlockState) : Prop :=
  if state.atLineStart then state.tailText chomping = state.breaks else chomping = .strip

/-- What is written after the text of a block, so that a line begins. -/
def lineEnd (state : BlockState) : Text := if state.atLineStart then [] else ['\n']

theorem atLineStart_next (state : BlockState) (c : Char) : (state.next c).atLineStart = isBreak c := by
  cases state <;> cases breaks : isBreak c <;> simp [next, breaks, atLineStart]

theorem atEdge_next (state : BlockState) (c : Char) : (state.next c).AtEdge := by
  cases state <;> cases breaks : isBreak c <;> simp [next, breaks, AtEdge]

theorem breaks_next (state : BlockState) (c : Char) :
    (state.next c).breaks = if isBreak c then state.breaks ++ [c] else [] := by
  cases state <;> cases breaks : isBreak c <;> simp [next, breaks, BlockState.breaks]

theorem settled_strip (inLine : isBreak c = false) (state : BlockState) : (state.next c).Settled .strip := by
  rw [Settled, atLineStart_next, inLine]
  rfl

theorem settled_keep (breaks : isBreak c = true) (state : BlockState) : (state.next c).Settled .keep := by
  cases state <;> simp [Settled, next, breaks, atLineStart, tailText, BlockState.breaks]

/-- A single line break at the end. -/
theorem settled_clip (breaks : isBreak c = true) (inLine : state.atLineStart = false) :
    (state.next c).Settled .clip := by
  cases state with
  | line indented => simp [Settled, next, breaks, atLineStart, tailText, BlockState.breaks]
  | margin indented lineEnd emptyLines column => cases inLine

end BlockState

/-! ## Lines -/

/-- A line that begins further left ends a block. -/
theorem readBlockLines_beginsLine (begins : BeginsLine more) (indented : Bool) (lineEnd emptyLines : Text) :
    readBlockLines false chomping 2 (.margin indented lineEnd emptyLines 0) more =
      some ((BlockState.margin indented lineEnd emptyLines 0).tailText chomping, more) := by
  cases more with
  | nil => rfl
  | cons c more =>
      rcases begins c rfl with ⟨visible, -, -⟩
      simp only [isGap, isBlank, Bool.or_eq_false_iff, beq_eq_false_iff_ne] at visible
      rw [readBlockLines, isHalfBreak_of_inLine visible.2, visible.2, if_neg Bool.false_ne_true,
        if_neg Bool.false_ne_true, if_pos (by decide), if_neg visible.1.1, if_neg visible.1.2]

theorem readBlockLines_break (printable : isPrintable c = true) (breaks : isBreak c = true) (state : BlockState)
    (rest : Text) :
    readBlockLines false chomping 2 state (c :: rest) = readBlockLines false chomping 2 (state.next c) rest := by
  cases state with
  | line indented =>
      rw [readBlockLines, isHalfBreak_of_isPrintable printable, if_neg Bool.false_ne_true, if_pos breaks,
        breakText_of_isPrintable printable breaks, BlockState.next, if_pos breaks]
  | margin indented lineEnd emptyLines column =>
      rw [readBlockLines, isHalfBreak_of_isPrintable printable, if_neg Bool.false_ne_true, if_pos breaks,
        breakText_of_isPrintable printable breaks, BlockState.next, if_pos breaks]

/-- A character that breaks no line is read, at the beginning of a line behind the indentation. -/
theorem readBlockLines_inLine (inLine : isBreak c = false) (atEdge : state.AtEdge) (rest : Text) :
    readBlockLines false chomping 2 state ((if state.atLineStart then indentation else []) ++ c :: rest) =
      (readBlockLines false chomping 2 (state.next c) rest).map
        fun (text, after) => (state.breaks ++ c :: text, after) := by
  have notHalf := isHalfBreak_of_inLine inLine rest
  cases state with
  | line indented =>
      change readBlockLines false chomping 2 (.line indented) (c :: rest) = _
      rw [readBlockLines, notHalf, inLine, BlockState.next, inLine]
      rfl
  | margin indented lineEnd emptyLines column =>
      obtain rfl : column = 0 := atEdge
      have behind : readBlockLines false chomping 2 (.margin indented lineEnd emptyLines 0)
            (' ' :: ' ' :: c :: rest) =
          readBlockLines false chomping 2 (.margin indented lineEnd emptyLines 2) (c :: rest) := rfl
      change readBlockLines false chomping 2 _ (' ' :: ' ' :: c :: rest) = _
      rw [behind, readBlockLines, notHalf, inLine, BlockState.next, inLine]
      rfl

/-- The lines of a text read back, if the mark leaves the right line breaks at the end. -/
theorem readBlockLines_body (begins : BeginsLine more) (printable : ∀ c ∈ text, isPrintable c = true)
    (atEdge : state.AtEdge) (settled : (text.foldl BlockState.next state).Settled chomping) :
    readBlockLines false chomping 2 state
        (blockBody state.atLineStart text ++ ((text.foldl BlockState.next state).lineEnd ++ more)) =
      some (state.breaks ++ text, more) := by
  induction text generalizing state with
  | nil =>
      rw [List.foldl_nil] at settled
      cases state with
      | line indented =>
          obtain rfl : chomping = .strip := settled
          exact readBlockLines_beginsLine begins indented ['\n'] []
      | margin indented lineEnd emptyLines column =>
          obtain rfl : column = 0 := atEdge
          have isTail : (BlockState.margin indented lineEnd emptyLines 0).tailText chomping = _ := settled
          rw [List.append_nil, ← isTail]
          exact readBlockLines_beginsLine begins indented lineEnd emptyLines
  | cons c rest ih =>
      rcases List.forall_mem_cons.1 printable with ⟨printable, printableRest⟩
      have goesOn := ih printableRest (state.atEdge_next c) settled
      rw [state.atLineStart_next c, state.breaks_next c] at goesOn
      rw [List.foldl_cons, blockBody]
      cases breaks : isBreak c with
      | true =>
          rw [breaks, if_pos rfl, List.append_assoc] at goesOn
          rw [if_pos rfl, List.cons_append, readBlockLines_break printable breaks, goesOn]
          rfl
      | false =>
          rw [breaks, if_neg Bool.false_ne_true] at goesOn
          rw [if_neg Bool.false_ne_true, List.append_assoc, List.cons_append,
            readBlockLines_inLine breaks atEdge, goesOn]
          rfl

/-! ## Marks -/

/-- What becomes of the line breaks at the end of a text. -/
def chompingOf (text : Text) : Chomping :=
  match text.reverse with
  | [] => .strip
  | [c] => if isBreak c then .keep else .strip
  | c :: before :: _ => if !isBreak c then .strip else if isBreak before then .keep else .clip

/-- Whether the first line of a text begins with a gap. -/
def beginsWithGap (text : Text) : Bool :=
  match text with
  | c :: _ => c == ' ' || isBreak c
  | [] => false

/-- The mark for what becomes of the line breaks at the end. -/
def chompingMark : Chomping → Text
  | .strip => ['-']
  | .clip => []
  | .keep => ['+']

theorem blockMarks_eq (text : Text) :
    blockMarks text = (if beginsWithGap text then ['2'] else []) ++ chompingMark (chompingOf text) := by
  have first : (match text with
      | c :: _ => if c = ' ' ∨ isBreak c then ['2'] else []
      | [] => []) = if beginsWithGap text then ['2'] else [] := by
    cases text <;> simp [beginsWithGap]
  have last : (match text.reverse with
      | [] => ['-']
      | [c] => if isBreak c then ['+'] else ['-']
      | c :: before :: _ => if !isBreak c then ['-'] else if isBreak before then ['+'] else []) =
        chompingMark (chompingOf text) := by
    rw [chompingOf]
    split <;> repeat' split
    all_goals rfl
  rw [← first, ← last]
  rfl

/-- The marks tell what becomes of the line breaks, and the indentation where the first line does not. -/
theorem readBlockMarks?_blockMarks (text rest : Text) :
    readBlockMarks? (blockMarks text ++ '\n' :: rest) =
      some (chompingOf text, if beginsWithGap text then some 2 else none, '\n' :: rest) := by
  rw [blockMarks_eq]
  cases beginsWithGap text <;> cases chompingOf text <;> rfl

/-- The mark leaves the right line breaks at the end. -/
theorem settled_chompingOf (text : Text) :
    (text.foldl BlockState.next .start).Settled (chompingOf text) := by
  -- The mark depends on the last two characters.
  obtain ⟨backwards, rfl⟩ : ∃ backwards, text = List.reverse backwards :=
    ⟨text.reverse, text.reverse_reverse.symm⟩
  rw [chompingOf, List.reverse_reverse]
  rcases backwards with _ | ⟨c, _ | ⟨before, front⟩⟩
  · rfl
  · change (BlockState.start.next c).Settled (if isBreak c then .keep else .strip)
    cases breaks : isBreak c with
    | false => exact BlockState.settled_strip breaks _
    | true => exact BlockState.settled_keep breaks _
  · rw [List.reverse_cons, List.foldl_append, List.reverse_cons, List.foldl_append]
    generalize front.reverse.foldl BlockState.next _ = state
    change ((state.next before).next c).Settled
      (if !isBreak c then .strip else if isBreak before then .keep else .clip)
    cases breaks : isBreak c with
    | false => exact BlockState.settled_strip breaks _
    | true =>
        cases early : isBreak before with
        | true => exact BlockState.settled_keep breaks _
        | false => exact BlockState.settled_clip breaks (by rw [BlockState.atLineStart_next, early])

theorem lineEnd_concat (front : Text) (c : Char) :
    ((front ++ [c]).foldl BlockState.next .start).lineEnd = if isBreak c then [] else ['\n'] := by
  rw [List.foldl_append, List.foldl_cons, List.foldl_nil, BlockState.lineEnd, BlockState.atLineStart_next]

/-- What is written after the text of a block. -/
theorem lineEnd_foldl_next (text : Text) :
    (text.foldl BlockState.next .start).lineEnd =
      match text.getLast? with
      | some c => if isBreak c then [] else ['\n']
      | none => [] := by
  rcases List.eq_nil_or_concat' text with rfl | ⟨front, c, rfl⟩
  · rfl
  · rw [lineEnd_concat, List.getLast?_concat]

/-- Where the first line begins with no gap, its indentation is seen. -/
theorem detectIndent?_blockBody (printable : isPrintable c = true) (visible : beginsWithGap (c :: rest) = false)
    (later : Text) : detectIndent? 0 0 (blockBody true (c :: rest) ++ later) = some 2 := by
  rw [beginsWithGap, Bool.or_eq_false_iff, beq_eq_false_iff_ne] at visible
  have noTab : c ≠ '\t' := by
    rintro rfl
    exact absurd printable (by decide)
  rw [blockBody, visible.2, if_neg Bool.false_ne_true]
  change detectIndent? 2 0 (c :: (blockBody false rest ++ later)) = some 2
  rw [detectIndent?, if_neg visible.1, if_neg noTab, visible.2]
  rfl

/-- A text is written as a block with its marks, its lines, and a line feed if the last line has no end. -/
theorem writeAs_literal (text : Text) :
    writeAs .literal text = '|' :: (blockMarks text ++
      '\n' :: (blockBody true text ++ (text.foldl BlockState.next .start).lineEnd)) := by
  rw [lineEnd_foldl_next]
  exact List.append_assoc _ _ _

theorem blockBody_concat (breaks : isBreak c = true) (atLineStart : Bool) (text : Text) :
    blockBody atLineStart (text ++ [c]) = blockBody atLineStart text ++ [c] := by
  induction text generalizing atLineStart with
  | nil => exact if_pos breaks
  | cons other text ih =>
      rw [List.cons_append, blockBody, blockBody]
      split
      · rw [ih, List.cons_append]
      · rw [ih, List.append_assoc, List.cons_append]

/-- A block ends with the end of a line. -/
theorem exists_lineEnd (nonempty : text ≠ []) (printable : ∀ c ∈ text, isPrintable c = true) :
    ∃ front c, blockBody true text ++ (text.foldl BlockState.next .start).lineEnd = front ++ [c] ∧
      isBreak c = true ∧ c ≠ '\r' := by
  rcases List.eq_nil_or_concat' text with rfl | ⟨front, c, rfl⟩
  · exact absurd rfl nonempty
  · rw [lineEnd_concat]
    cases breaks : isBreak c with
    | true =>
        rw [if_pos rfl, List.append_nil, blockBody_concat breaks]
        refine ⟨_, c, rfl, breaks, ?_⟩
        rintro rfl
        exact absurd (printable '\r' (by simp)) (by decide)
    | false => exact ⟨_, '\n', rfl, rfl, by decide⟩

/-- A text of visible characters and line breaks reads back from a block, which ends with the end of a line. -/
theorem readBlock_writeAs (begins : BeginsLine more) (nonempty : text ≠ [])
    (printable : ∀ c ∈ text, isPrintable c = true) :
    ∃ written c, writeAs .literal text = '|' :: (written ++ [c]) ∧ isBreak c = true ∧ c ≠ '\r' ∧
      readBlock false 1 (written ++ c :: more) = some (text, more) := by
  rcases exists_lineEnd nonempty printable with ⟨front, last, isEnd, breaks, noReturn⟩
  refine ⟨blockMarks text ++ '\n' :: front, last, ?_, breaks, noReturn, ?_⟩
  · rw [writeAs_literal, isEnd, List.append_assoc, List.cons_append]
  have isBody : readBlockLines false (chompingOf text) 2 .start
      (blockBody true text ++ ((text.foldl BlockState.next .start).lineEnd ++ more)) = some (text, more) :=
    readBlockLines_body begins printable rfl (settled_chompingOf text)
  have isRest : blockBody true text ++ ((text.foldl BlockState.next .start).lineEnd ++ more) =
      front ++ last :: more := by
    rw [← List.append_assoc, isEnd, List.append_assoc, List.singleton_append]
  rw [List.append_assoc, List.cons_append, readBlock, readBlockMarks?_blockMarks]
  have isLines (lines : Text) : afterLine ('\n' :: lines) = lines := rfl
  cases visible : beginsWithGap text with
  | true =>
      change readBlockLines false (chompingOf text) 2 _ (afterLine _) = _
      rw [isLines, ← isRest]
      exact isBody
  | false =>
      obtain ⟨c, rest, rfl⟩ := List.exists_cons_of_ne_nil nonempty
      have isIndent := detectIndent?_blockBody (printable c List.mem_cons_self) visible
        ((List.foldl BlockState.next .start (c :: rest)).lineEnd ++ more)
      change ((detectIndent? 0 0 (afterLine _)).map fun found => max (max found 1) 1).bind
        (fun indent => readBlockLines false (chompingOf (c :: rest)) indent _ (afterLine _)) = _
      rw [isLines, ← isRest, isIndent]
      exact isBody

/-- What is written as a block are characters of the text, spaces, line feeds and marks. -/
theorem all_isAllowed_literal (printable : ∀ c ∈ text, isPrintable c = true) :
    (writeAs .literal text).all isAllowed = true := by
  have body (atLineStart : Bool) : (blockBody atLineStart text).all isAllowed = true := by
    induction text generalizing atLineStart with
    | nil => rfl
    | cons c rest ih =>
        rcases List.forall_mem_cons.1 printable with ⟨printable, printableRest⟩
        have allowed := isAllowed_of_isPrintable printable
        rw [blockBody]
        split
        · rw [List.all_cons, allowed, ih printableRest]
          rfl
        · rw [List.all_append, List.all_cons, allowed, ih printableRest]
          cases atLineStart <;> rfl
  have marks : (blockMarks text).all isAllowed = true := by
    rw [blockMarks_eq]
    cases beginsWithGap text <;> cases chompingOf text <;> rfl
  have lineEnd (state : BlockState) : state.lineEnd.all isAllowed = true := by cases state <;> rfl
  rw [writeAs_literal, List.all_cons, List.all_append, List.all_cons, List.all_append, marks, body, lineEnd]
  rfl

end AddonIndex.Yaml
