import AddonIndex.Proofs.ClassConfig.Expansion
import AddonIndex.Proofs.ClassConfig.LineBoundary
import AddonIndex.Proofs.ClassConfig.OutputLine

/-!
# String literals on their way through all stages

A string is written between quotes, with each quote in it doubled. Three scanners go over the
literal. Those for comments and for macros turn into and out of a string at every quote, and so
they are outside of one in the middle of each doubled quote; the one for tokens knows doubled
quotes. They agree nevertheless, since nothing stands between two quotes of a pair that could
begin a comment or an identifier. So an assignment of a literal on a line of its own reaches the
grammar as it was written, whatever the string holds and whatever macros are defined there.
-/

namespace AddonIndex.ClassConfig

open Arithmetic Text

variable {content rest : Text}

/-! ## Comments -/

/-- Whether a text that begins outside of comments and strings stays as it is, and ends outside of
them too. -/
def KeepsCode (text : Text) : Prop :=
  ∀ rest, stripCommentsFrom .code (text ++ rest) = text ++ stripCommentsFrom .code rest

theorem KeepsCode.append {first second : Text} (firstKeeps : KeepsCode first)
    (secondKeeps : KeepsCode second) : KeepsCode (first ++ second) := by
  intro rest
  rw [List.append_assoc, firstKeeps, secondKeeps, List.append_assoc]

theorem keepsCode_of_forall {text : Text} (plain : ∀ c ∈ text, c ≠ '/' ∧ c ≠ '"') :
    KeepsCode text := by
  intro rest
  induction text with
  | nil => rfl
  | cons c text ih =>
      rcases List.forall_mem_cons.1 plain with ⟨⟨noSlash, noQuote⟩, plain⟩
      rw [List.cons_append, (stripCommentsFrom_code fun slash => absurd slash noSlash).1,
        if_neg noQuote, ih plain, List.cons_append]

theorem doubleQuotes_quote (content : Text) :
    Token.doubleQuotes ('"' :: content) = '"' :: '"' :: Token.doubleQuotes content := rfl

theorem doubleQuotes_cons {c : Char} (ordinary : c ≠ '"') (content : Text) :
    Token.doubleQuotes (c :: content) = c :: Token.doubleQuotes content := by
  simp [Token.doubleQuotes, ordinary]

/-- The scanner for comments leaves a string at the first of two quotes and comes back at once. -/
theorem stripCommentsFrom_doubleQuotes (oneLine : OneLine content) (rest : Text) :
    stripCommentsFrom .string (Token.doubleQuotes content ++ '"' :: rest) =
      Token.doubleQuotes content ++ '"' :: stripCommentsFrom .code rest := by
  induction content with
  | nil => simp [Token.doubleQuotes, stripCommentsFrom]
  | cons c content ih =>
      have later := ih (List.not_mem_of_not_mem_cons oneLine)
      have sameLine : c ≠ '\n' := (List.ne_of_not_mem_cons oneLine).symm
      by_cases isQuote : c = '"'
      · subst isQuote
        simp [doubleQuotes_quote, stripCommentsFrom, later]
      · simp [doubleQuotes_cons isQuote, stripCommentsFrom, isQuote, sameLine, later]

theorem keepsCode_literal (oneLine : OneLine content) : KeepsCode (Token.string content).render := by
  intro rest
  simpa [Token.render, stripCommentsFrom] using stripCommentsFrom_doubleQuotes oneLine rest

/-! ## Macros -/

/-- A literal falls into string literals of a line, one more than the string has quotes. -/
theorem exists_divides_literal {segments : List Segment} (content : Text)
    (later : Divides segments rest) :
    ∃ literals, Divides (literals ++ segments) ((Token.string content).render ++ rest) ∧
      ∀ segment ∈ literals, ∃ inside, segment = .quoted inside := by
  -- The induction goes on with what is read of the current one.
  suffices general : ∀ inside : Text, '"' ∉ inside →
      ∃ literals, Divides (literals ++ segments)
          ('"' :: (inside ++ Token.doubleQuotes content ++ '"' :: rest)) ∧
        ∀ segment ∈ literals, ∃ inside, segment = .quoted inside by
    simpa [Token.render] using general [] List.not_mem_nil
  induction content with
  | nil =>
      intro inside plain
      refine ⟨[.quoted inside], ?_, by simp⟩
      simpa [Token.doubleQuotes] using Divides.quoted plain later
  | cons c content ih =>
      intro inside plain
      by_cases isQuote : c = '"'
      · subst isQuote
        obtain ⟨literals, divides, areQuoted⟩ := ih [] List.not_mem_nil
        refine ⟨.quoted inside :: literals, ?_, List.forall_mem_cons.2 ⟨⟨inside, rfl⟩, areQuoted⟩⟩
        simpa [doubleQuotes_quote] using Divides.quoted plain divides
      · obtain ⟨literals, divides, areQuoted⟩ := ih (inside ++ [c]) (by simp [plain, Ne.symm isQuote])
        exact ⟨literals, by simpa [doubleQuotes_cons isQuote] using divides, areQuoted⟩

/-! ## Tokens -/

/-- The scanner for tokens takes back the doubling of quotes. -/
theorem splitString?_doubleQuotes (content : Text) (stops : rest.head? ≠ some '"') :
    splitString? (Token.doubleQuotes content ++ '"' :: rest) = some (content, rest) := by
  induction content with
  | nil =>
      cases rest with
      | nil => rfl
      | cons c rest =>
          have other : c ≠ '"' := fun isQuote => stops (congrArg some isQuote)
          simp [Token.doubleQuotes, splitString?, other]
  | cons c content ih =>
      by_cases isQuote : c = '"'
      · subst isQuote
        simp [doubleQuotes_quote, splitString?, ih]
      · simp [doubleQuotes_cons isQuote, splitString?, isQuote, ih]

theorem scans_literal_string (content : Text) (stops : rest.head? ≠ some '"') :
    Scans ((Token.string content).render ++ rest) [.string content] rest := by
  have reads : readToken? '"' (Token.doubleQuotes content ++ '"' :: rest) =
      some (.string content, rest) := by
    rw [readToken?, splitString?_doubleQuotes content stops]
    rfl
  simpa [Token.render] using scans_token (by decide) reads

/-! ## Lines -/

/-- Whether a text holds nothing but blanks, and no line feed. -/
def IsMargin (text : Text) : Prop := ∀ c ∈ text, isBlank c = true ∧ c ≠ '\n'

instance : DecidablePred IsMargin := List.decidableBAll _

/-- A line that assigns a string literal to a name. Blanks may stand at its beginning and at its
end. -/
structure LiteralLine where
  margin : Text
  name : Text
  content : Text
  trail : Text
  isMargin : IsMargin margin
  isName : IsName name
  oneLine : OneLine content
  isTrail : IsMargin trail

theorem ne_of_isBlank {c other : Char} (blank : isBlank c = true) (visible : isBlank other = false) :
    c ≠ other := by
  rintro rfl
  rw [visible] at blank
  cases blank

theorem isIdentifierChar_of_isBlank {c : Char} (blank : isBlank c = true) :
    isIdentifierChar c = false := by
  have noWord := isWordChar_of_isBlank blank
  unfold isWordChar at noWord
  exact (Bool.or_eq_false_iff.1 noWord).1

theorem IsMargin.keepsCode {text : Text} (isMargin : IsMargin text) : KeepsCode text :=
  keepsCode_of_forall fun c member =>
    ⟨ne_of_isBlank (isMargin c member).1 (by decide), ne_of_isBlank (isMargin c member).1 (by decide)⟩

/-- Blanks are segments of their own. -/
theorem IsMargin.divides {text : Text} {segments : List Segment} (isMargin : IsMargin text)
    (later : Divides segments rest) : Divides (text.map .mark ++ segments) (text ++ rest) := by
  induction text with
  | nil => exact later
  | cons c text ih =>
      rcases List.forall_mem_cons.1 isMargin with ⟨⟨blank, -⟩, isMargin⟩
      exact .mark (isIdentifierChar_of_isBlank blank) (ne_of_isBlank blank (by decide)) (ih isMargin)

theorem isRun_of_isName {name : Text} (isName : IsName name) : IsRun false name := by
  obtain ⟨⟨c, first, starts⟩, all⟩ := isName
  have apart := beginsLiteral_of_isIdentifierStart starts
  unfold beginsLiteral at apart
  exact ⟨⟨c, first, (Bool.or_eq_false_iff.1 apart).1⟩, all⟩

/-- Only what follows the last character of another kind can be dropped at the end. -/
theorem dropEndWhile_append_cons {p : Char → Bool} {c : Char} (other : p c = false)
    (front trail : Text) :
    Text.dropEndWhile p (front ++ c :: trail) = front ++ c :: Text.dropEndWhile p trail := by
  have dropped (run more : Text) :
      (run ++ c :: more).dropWhile p = run.dropWhile p ++ c :: more := by
    induction run with
    | nil => simp [other]
    | cons first run ih => by_cases kind : p first = true <;> simp [kind, ih]
  simp [Text.dropEndWhile, dropped]

namespace LiteralLine

/-- The text of a line. -/
def text (line : LiteralLine) : Text :=
  line.margin ++ (line.name ++ ([' ', '=', ' '] ++
    ((Token.string line.content).render ++ (';' :: line.trail))))

variable (line : LiteralLine)

/-- Comments neither begin nor end in such a line. -/
theorem keepsCode : KeepsCode line.text := by
  have nameKeeps : KeepsCode line.name := by
    refine keepsCode_of_forall fun c member => ⟨?_, ?_⟩ <;>
    · rintro rfl
      exact absurd (line.isName.2 _ member) (by decide)
  have signKeeps : KeepsCode [' ', '=', ' '] := keepsCode_of_forall (by simp)
  have endKeeps : KeepsCode [';'] := keepsCode_of_forall (by simp)
  have endingKeeps : KeepsCode (';' :: line.trail) := endKeeps.append line.isTrail.keepsCode
  exact line.isMargin.keepsCode.append <| nameKeeps.append <| signKeeps.append <|
    (keepsCode_literal line.oneLine).append endingKeeps

theorem lineFeed_not_mem : '\n' ∉ line.text := by
  have inName : '\n' ∉ line.name := fun member => absurd (line.isName.2 _ member) (by decide)
  have inMargin : '\n' ∉ line.margin := fun member => (line.isMargin _ member).2 rfl
  have inTrail : '\n' ∉ line.trail := fun member => (line.isTrail _ member).2 rfl
  have inContent : '\n' ∉ Token.doubleQuotes line.content := by
    intro found
    obtain ⟨c, member, found⟩ := List.mem_flatMap.1 found
    split at found
    · simp at found
    · exact line.oneLine (List.mem_singleton.1 found ▸ member)
  simp [text, Token.render, inName, inMargin, inTrail, inContent]

theorem text_ne_nil : line.text ≠ [] := by simp [text]

/-- The name is the first that is visible on the line, so that the line is no directive. -/
theorem read_text : Line.read line.text = .ordinary line.text := by
  obtain ⟨⟨c, first, starts⟩, -⟩ := line.isName
  obtain ⟨tail, name⟩ := List.head?_eq_some_iff.1 first
  have visible := isBlank_of_isWordChar (isWordChar_of_isIdentifierStart starts)
  have trimmed : Text.trimStart line.text = c :: (tail ++ ([' ', '=', ' '] ++
      ((Token.string line.content).render ++ (';' :: line.trail)))) := by
    rw [Text.trimStart, text, List.dropWhile_append_of_pos fun c member => (line.isMargin c member).1,
      name, List.cons_append, List.dropWhile_cons_of_neg (by simp [visible])]
  unfold Line.read
  split
  · rename_i other directive
    rw [directive] at trimmed
    obtain ⟨rfl, -⟩ := List.cons.inj trimmed
    cases starts
  · rfl

/-- Only the name can name a macro. -/
theorem hasReplaceable_text {macros : MacroTable} (noMacro : macros.has line.name = false) :
    hasReplaceable macros line.text = false := by
  have notReplaced : objectBody? macros line.name = none := by
    rw [OrderedMap.has, Option.isSome_eq_false_iff, Option.isNone_iff_eq_none] at noMacro
    rw [objectBody?, noMacro]
  have trailDivides := line.isTrail.divides .nil
  rw [List.append_nil, List.append_nil] at trailDivides
  have ending : Divides (.mark ';' :: line.trail.map .mark) (';' :: line.trail) :=
    .mark (by decide) (by decide) trailDivides
  obtain ⟨literals, divides, areQuoted⟩ := exists_divides_literal line.content ending
  have fromSign := Divides.mark (c := ' ') (by decide) (by decide) <|
    .mark (c := '=') (by decide) (by decide) <| .mark (c := ' ') (by decide) (by decide) divides
  have fromName := Divides.word (isRun_of_isName line.isName) (endsRun_cons (by decide)) fromSign
  refine (line.isMargin.divides fromName).hasReplaceable_iff.2 ?_
  intro segment member
  simp only [List.mem_append, List.mem_map, List.mem_cons] at member
  rcases member with ⟨c, -, rfl⟩ | rfl | rfl | rfl | rfl | quoted | rfl | ⟨c, -, rfl⟩
  case inr.inl => exact notReplaced
  case inr.inr.inr.inr.inr.inl =>
    obtain ⟨inside, rfl⟩ := areQuoted segment quoted
    rfl
  all_goals rfl

/-- Such a line is scanned as the four tokens of the assignment. -/
theorem scans (more : Text) : Scans (line.text ++ '\n' :: more)
    [.word line.name, .equals, .string line.content, .semicolon] more := by
  have trailBlank : Scans (line.trail ++ '\n' :: more) [] more :=
    (scans_blanks (fun c member => (line.isTrail c member).1) _).trans (scans_blank (by decide) more)
  have ending : Scans (';' :: (line.trail ++ '\n' :: more)) [.semicolon] more :=
    (scans_token (by decide) rfl).trans trailBlank
  have literal := (scans_literal_string line.content (by simp)).trans ending
  have sign := (scans_blank (c := ' ') (by decide) _).trans <|
    (scans_token (c := '=') (by decide) rfl).trans <|
      (scans_blank (c := ' ') (by decide) _).trans literal
  have fromName := (scans_name line.isName (by simp [IsSeparate]; decide)).trans sign
  have fromMargin :=
    (scans_blanks (fun c member => (line.isMargin c member).1) _).trans fromName
  simpa [text] using fromMargin

theorem text_eq : line.text =
    (line.margin ++ (line.name ++ ([' ', '=', ' '] ++ (Token.string line.content).render))) ++
      ';' :: line.trail := by
  simp [text]

/-- Without the carriage returns at its end a line assigns the same literal to the same name. -/
theorem exists_dropEndWhile : ∃ other : LiteralLine, other.name = line.name ∧
    other.content = line.content ∧ Text.dropEndWhile (· == '\r') line.text = other.text := by
  have isTrail : IsMargin (Text.dropEndWhile (· == '\r') line.trail) := fun c member =>
    line.isTrail c <| List.mem_reverse.1 <|
      (List.dropWhile_sublist _).subset (List.mem_reverse.1 member)
  refine ⟨{ line with trail := Text.dropEndWhile (· == '\r') line.trail, isTrail }, rfl, rfl, ?_⟩
  rw [text_eq, dropEndWhile_append_cons (by decide), text_eq]

/-- Such a line is not continued. -/
theorem isContinued_text : isContinued line.text = false := by
  rw [isContinued, Option.isSome_eq_false_iff, Option.isNone_iff_eq_none,
    Option.eq_none_iff_forall_ne_some]
  intro head dropped
  have last : '\\' ∈ (';' :: line.trail).getLast? := by
    rw [← List.getLast?_append_cons, ← text_eq, eq_append_of_dropEnding? dropped]
    exact List.getLast?_concat
  rcases List.mem_cons.1 (List.mem_of_getLast? last) with isEnd | inTrail
  · cases isEnd
  · exact absurd (line.isTrail _ inTrail).1 (by decide)

/-- Between ended lines and the end of its own line, the line is a logical line of a text. -/
theorem exists_logicalLines {before after : Text} (ended : IsEnded before)
    (uncontinued : EndsUncontinued (physicalLines before)) (stops : ∀ c ∈ after.head?, c = '\n') :
    ∃ other : LiteralLine, other.name = line.name ∧ other.content = line.content ∧
      ∃ others, logicalLines (before ++ (line.text ++ after)) =
        logicalLines before ++ other.text :: others := by
  obtain ⟨other, sameName, sameContent, shown⟩ := line.exists_dropEndWhile
  refine ⟨other, sameName, sameContent,
    linesInPlace false ((feedLines after.tail).map (Text.dropEndWhile (· == '\r'))), ?_⟩
  have apart : Text.dropEnding? ['\\'] other.text = none := by
    simpa [isContinued] using other.isContinued_text
  rw [logicalLines_append ended uncontinued, logicalLines_eq (line.text ++ after), physicalLines,
    feedLines_line line.lineFeed_not_mem line.text_ne_nil stops, List.map_cons, shown, linesInPlace,
    if_neg Bool.false_ne_true, joinedLine, apart, other.isContinued_text]

end LiteralLine

end AddonIndex.ClassConfig
