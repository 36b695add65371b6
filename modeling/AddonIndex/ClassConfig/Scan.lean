import AddonIndex.ClassConfig.Token
import AddonIndex.Number.Literal
import AddonIndex.Text.Blank

/-!
# From text to tokens

Blanks separate tokens and mean nothing else. A word is a longest run of ASCII
letters, digits, underscores and dots; a sign right before a digit or a dot
begins a word too, and in a word that does not begin with a letter or an
underscore a sign may follow an `e`. Words that read as numbers are numbers. A
string ends at a quote that is not doubled, and may go over several lines.
-/

namespace AddonIndex.ClassConfig

/-- Whether a character can be part of a word. -/
def isWordChar (c : Char) : Bool := c.isAlphanum || c == '_' || c == '.'

/-- Whether a character is a sign. -/
def isSign (c : Char) : Bool := c == '-' || c == '+'

/-- Whether a word that begins with a character is read as a number if possible. -/
def beginsNumber (c : Char) : Bool := !(c.isAlpha || c == '_')

/-- The rest of a word after the character `before`, and what follows the word. -/
def splitWord (numeric : Bool) (before : Char) : Text → Text × Text
  | [] => ([], [])
  | c :: rest =>
      if isWordChar c || (numeric && isSign c && (before == 'e' || before == 'E')) then
        let (word, after) := splitWord numeric c rest
        (c :: word, after)
      else ([], c :: rest)

theorem splitWord_append (numeric : Bool) (before : Char) (text : Text) :
    (splitWord numeric before text).1 ++ (splitWord numeric before text).2 = text := by
  induction text generalizing before with
  | nil => rfl
  | cons c rest ih =>
      unfold splitWord
      split
      · simp [ih c]
      · rfl

theorem length_splitWord_le (numeric : Bool) (before : Char) (text : Text) :
    (splitWord numeric before text).2.length ≤ text.length := by
  have parts := congrArg List.length (splitWord_append numeric before text)
  simp only [List.length_append] at parts
  omega

/-- The token of a word. -/
def classifyWord (word : Text) : Token :=
  match word.dropWhile isSign with
  | c :: _ =>
      if c.isDigit || c == '.' then
        match readDecimal? word with
        | some value => .number value
        | none =>
            match readHex? word with
            | some value => .number value
            | none => .word word
      else .word word
  | [] => .word word

/-- The text of a string literal after its opening quote, and what follows its
closing quote. There is none if the literal does not end. -/
def splitString? : Text → Option (Text × Text)
  | [] => none
  | ['"'] => some ([], [])
  | '"' :: '"' :: rest => (splitString? rest).map fun (text, after) => ('"' :: text, after)
  | c :: rest =>
      if c = '"' then some ([], rest)
      else (splitString? rest).map fun (text, after) => (c :: text, after)

theorem length_splitString?_le {text content after : Text}
    (h : splitString? text = some (content, after)) : after.length ≤ text.length := by
  fun_induction splitString? text generalizing content after with
  | case1 => simp at h
  | case2 => simp_all
  | case3 rest ih =>
      simp only [Option.map_eq_some_iff, Prod.mk.injEq] at h
      obtain ⟨⟨inner, tail⟩, found, _, rfl⟩ := h
      have := ih found
      simp only [List.length_cons]
      omega
  | case4 rest => simp_all
  | case5 c rest _ _ _ ih =>
      simp only [Option.map_eq_some_iff, Prod.mk.injEq] at h
      obtain ⟨⟨inner, tail⟩, found, _, rfl⟩ := h
      have := ih found
      simp only [List.length_cons]
      omega

/-- Whether a character and the text after it begin a word. -/
def beginsWord (c : Char) (rest : Text) : Bool :=
  isWordChar c ||
    (isSign c && match rest with
      | next :: _ => next.isDigit || next == '.'
      | [] => false)

/-- The token that begins with a visible character, and what follows it. There
is none if a string literal does not end. -/
def readToken? (c : Char) (rest : Text) : Option (Token × Text) :=
  match c with
  | '\x7b' => some (.openBrace, rest)
  | '\x7d' => some (.closeBrace, rest)
  | '[' => some (.openBracket, rest)
  | ']' => some (.closeBracket, rest)
  | ':' => some (.colon, rest)
  | ';' => some (.semicolon, rest)
  | ',' => some (.comma, rest)
  | '=' => some (.equals, rest)
  | '"' => (splitString? rest).map fun (text, after) => (.string text, after)
  | _ =>
      if c = '+' ∧ rest.head? = some '=' then some (.plusEquals, rest.drop 1)
      else if beginsWord c rest then
        let (word, after) := splitWord (beginsNumber c) c rest
        some (classifyWord (c :: word), after)
      else some (.other c, rest)

theorem length_readToken?_le {c : Char} {rest after : Text} {token : Token}
    (h : readToken? c rest = some (token, after)) : after.length ≤ rest.length := by
  unfold readToken? at h
  split at h
  case h_9 =>
    simp only [Option.map_eq_some_iff, Prod.mk.injEq] at h
    obtain ⟨⟨inner, tail⟩, found, _, rfl⟩ := h
    exact length_splitString?_le found
  case h_10 =>
    split at h
    · simp only [Option.some.injEq, Prod.mk.injEq] at h
      simp [← h.2]
    · split at h
      · simp only [Option.some.injEq, Prod.mk.injEq] at h
        rw [← h.2]
        exact length_splitWord_le _ _ _
      · simp only [Option.some.injEq, Prod.mk.injEq] at h
        simp [h.2]
  all_goals
    simp only [Option.some.injEq, Prod.mk.injEq] at h
    simp [h.2]

/-- The tokens of a text that begins on the given line. If a string literal does
not end, the line on which it begins is the error. -/
def scanFrom (line : Nat) (text : Text) : Except Nat (List Lexeme) :=
  match text with
  | [] => .ok []
  | c :: rest =>
      if c = '\n' then scanFrom (line + 1) rest
      else if isBlank c then scanFrom line rest
      else
        match _found : readToken? c rest with
        | none => .error line
        | some (token, after) =>
            match scanFrom (line + token.lineFeeds) after with
            | .error e => .error e
            | .ok lexemes => .ok (⟨token, line⟩ :: lexemes)
termination_by text.length
decreasing_by
  · simp
  · simp
  · have := length_readToken?_le _found
    simp only [List.length_cons]
    omega

/-- The tokens of a text. -/
def scan (text : Text) : Except Nat (List Lexeme) := scanFrom 1 text

end AddonIndex.ClassConfig
