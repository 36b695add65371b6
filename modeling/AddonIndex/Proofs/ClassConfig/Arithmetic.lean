import AddonIndex.ClassConfig.Macro
import AddonIndex.ClassConfig.Directive
import AddonIndex.ClassConfig.Scan
import AddonIndex.Proofs.Number.Literal

/-!
# Arithmetic expressions and their texts

What the text of an expression means, apart from how configs are scanned. A text
falls into numbers, names, operators and parentheses, with blanks anywhere
between them; of the four operators, times and divided bind more tightly than plus
and minus, and operators of one kind group from the left. A number is the 64-bit
number nearest to its literal, the only form in which a config can hold it.

A text falls into its parts in one way only, so a text whose parts do not form an
expression means nothing.
-/

namespace AddonIndex.ClassConfig

namespace Arithmetic

/-! ## Expressions -/

/-- A binary operator. -/
inductive Operator
  | plus
  | minus
  | times
  | divided
deriving DecidableEq, Repr

/-- How an operator is written. -/
def Operator.char : Operator → Char
  | plus => '+'
  | minus => '-'
  | times => '*'
  | divided => '/'

/-- Plus and minus bind less tightly than times and divided. -/
def Operator.isSum : Operator → Bool
  | plus => true
  | minus => true
  | _ => false

/-- An expression. -/
inductive Expression
  | literal (value : Binary64)
  | name (text : Text)
  | binary (operator : Operator) (left right : Expression)
deriving DecidableEq, Repr

/-- The numbers in an expression, from left to right. -/
def Expression.literals : Expression → List Binary64
  | literal value => [value]
  | name _ => []
  | binary _ left right => left.literals ++ right.literals

/-- A symbol of a written expression. -/
inductive Symbol
  | literal (value : Binary64)
  | name (text : Text)
  | operator (operator : Operator)
  | opening
  | closing
deriving DecidableEq, Repr

/-- How tightly an expression binds: as a sum, a product, or an operand. -/
inductive Level
  | sum
  | product
  | operand
deriving DecidableEq, Repr

/-- The symbols form the expression, which binds at least as tightly as the level says. -/
inductive Forms : Level → List Symbol → Expression → Prop
  | literal (value : Binary64) : Forms .operand [.literal value] (.literal value)
  | name (text : Text) : Forms .operand [.name text] (.name text)
  | group {symbols : List Symbol} {e : Expression} (inner : Forms .sum symbols e) :
      Forms .operand (.opening :: (symbols ++ [.closing])) e
  | operand {symbols : List Symbol} {e : Expression} (inner : Forms .operand symbols e) :
      Forms .product symbols e
  | product {operator : Operator} {first second : List Symbol} {left right : Expression}
      (tight : operator.isSum = false) (onLeft : Forms .product first left)
      (onRight : Forms .operand second right) :
      Forms .product (first ++ .operator operator :: second) (.binary operator left right)
  | term {symbols : List Symbol} {e : Expression} (inner : Forms .product symbols e) :
      Forms .sum symbols e
  | sum {operator : Operator} {first second : List Symbol} {left right : Expression}
      (loose : operator.isSum = true) (onLeft : Forms .sum first left)
      (onRight : Forms .product second right) :
      Forms .sum (first ++ .operator operator :: second) (.binary operator left right)

/-! ## Operands and operators alternate -/

/-- Whether an operand must come next, after a symbol. There is no answer if the symbol
cannot stand where it does. -/
def Symbol.step? (needsOperand : Bool) : Symbol → Option Bool
  | literal _ => if needsOperand then some false else none
  | name _ => if needsOperand then some false else none
  | opening => if needsOperand then some true else none
  | operator _ => if needsOperand then none else some true
  | closing => if needsOperand then none else some false

/-- Whether an operand must come next, after all the symbols. -/
def steps? (needsOperand : Bool) (symbols : List Symbol) : Option Bool :=
  symbols.foldlM Symbol.step? needsOperand

theorem steps?_append (needsOperand : Bool) (first second : List Symbol) :
    steps? needsOperand (first ++ second) =
      (steps? needsOperand first).bind fun next => steps? next second :=
  List.foldlM_append

theorem steps?_cons (needsOperand : Bool) (symbol : Symbol) (symbols : List Symbol) :
    steps? needsOperand (symbol :: symbols) =
      (symbol.step? needsOperand).bind fun next => steps? next symbols :=
  List.foldlM_cons

/-- An expression stands where an operand must, and no operand can follow it. -/
theorem Forms.steps?_eq {level : Level} {symbols : List Symbol} {e : Expression}
    (forms : Forms level symbols e) : steps? true symbols = some false := by
  induction forms with
  | literal value => rfl
  | name text => rfl
  | group inner ih =>
      rw [steps?_cons, show Symbol.opening.step? true = some true from rfl, Option.bind_some,
        steps?_append, ih]
      rfl
  | operand inner ih => exact ih
  | term inner ih => exact ih
  | product tight onLeft onRight leftIh rightIh =>
      rw [steps?_append, leftIh, Option.bind_some, steps?_cons]
      exact rightIh
  | sum loose onLeft onRight leftIh rightIh =>
      rw [steps?_append, leftIh, Option.bind_some, steps?_cons]
      exact rightIh

/-- The number of a symbol. -/
def Symbol.literal? : Symbol → Option Binary64
  | literal value => some value
  | _ => none

/-- An expression has the numbers of its symbols. -/
theorem Forms.literals_eq {level : Level} {symbols : List Symbol} {e : Expression}
    (forms : Forms level symbols e) : symbols.filterMap Symbol.literal? = e.literals := by
  induction forms with
  | literal value => rfl
  | name text => rfl
  | group inner ih =>
      rw [List.filterMap_cons_none rfl, List.filterMap_append, ih]
      exact List.append_nil _
  | operand inner ih => exact ih
  | term inner ih => exact ih
  | product tight onLeft onRight leftIh rightIh =>
      rw [List.filterMap_append, List.filterMap_cons_none rfl, leftIh, rightIh]
      rfl
  | sum loose onLeft onRight leftIh rightIh =>
      rw [List.filterMap_append, List.filterMap_cons_none rfl, leftIh, rightIh]
      rfl

/-! ## Texts -/

/-- A name: a letter or an underscore, then letters, digits and underscores. -/
def IsName (text : Text) : Prop :=
  (∃ c ∈ text.head?, isIdentifierStart c) ∧ ∀ c ∈ text, isIdentifierChar c

/-- Whether a character begins a number: a digit or the point. -/
def beginsLiteral (c : Char) : Bool := c.isDigit || c == '.'

/-- A decimal literal without a sign, and the number nearest to it. -/
def IsLiteral (text : Text) (value : Binary64) : Prop :=
  (∃ c ∈ text.head?, beginsLiteral c) ∧ readDecimal? text = some value

/-- A number or a name is over here: no letter, digit, underscore or point follows it. -/
def IsSeparate (rest : Text) : Prop := ∀ c ∈ rest.head?, isWordChar c = false

instance : DecidablePred IsSeparate
  | [] => isTrue (by simp [IsSeparate])
  | c :: _ => decidable_of_iff (isWordChar c = false) (by simp [IsSeparate])

/-- A part of a written expression. An operator right before a number is one part with it. -/
inductive Part
  | literal (value : Binary64)
  | name (text : Text)
  | operator (operator : Operator)
  | attached (operator : Operator) (value : Binary64)
  | opening
  | closing
deriving DecidableEq, Repr

/-- The symbols of a part. -/
def Part.symbols : Part → List Symbol
  | .literal value => [.literal value]
  | .name text => [.name text]
  | .operator sign => [.operator sign]
  | .attached sign value => [.operator sign, .literal value]
  | .opening => [.opening]
  | .closing => [.closing]

/-- The text falls into the parts. -/
inductive Written : List Part → Text → Prop
  | nil : Written [] []
  | blank {c : Char} {parts : List Part} {text : Text} (isBlank : isBlank c)
      (rest : Written parts text) : Written parts (c :: text)
  | literal {literal : Text} {value : Binary64} {parts : List Part} {text : Text}
      (isLiteral : IsLiteral literal value) (separate : IsSeparate text)
      (rest : Written parts text) : Written (.literal value :: parts) (literal ++ text)
  | name {name : Text} {parts : List Part} {text : Text} (isName : IsName name)
      (separate : IsSeparate text) (rest : Written parts text) :
      Written (.name name :: parts) (name ++ text)
  | operator (operator : Operator) {parts : List Part} {text : Text}
      (apart : ∀ c ∈ text.head?, beginsLiteral c = false) (rest : Written parts text) :
      Written (.operator operator :: parts) (operator.char :: text)
  | attached (operator : Operator) {literal : Text} {value : Binary64} {parts : List Part}
      {text : Text} (isLiteral : IsLiteral literal value) (separate : IsSeparate text)
      (rest : Written parts text) :
      Written (.attached operator value :: parts) (operator.char :: (literal ++ text))
  | opening {parts : List Part} {text : Text} (rest : Written parts text) :
      Written (.opening :: parts) ('(' :: text)
  | closing {parts : List Part} {text : Text} (rest : Written parts text) :
      Written (.closing :: parts) (')' :: text)

/-- The text means the expression. -/
def Reads (text : Text) (e : Expression) : Prop :=
  ∃ parts, Written parts text ∧ Forms .sum (parts.flatMap Part.symbols) e

/-! ## Words -/

/-- A run of characters that can be part of a word belongs to the word. -/
theorem splitWord_append_of_forall {numeric : Bool} {before : Char} {run rest : Text}
    (areWord : ∀ c ∈ run, isWordChar c) :
    splitWord numeric before (run ++ rest) =
      (run ++ (splitWord numeric (run.getLastD before) rest).1,
        (splitWord numeric (run.getLastD before) rest).2) := by
  induction run generalizing before with
  | nil => rfl
  | cons c run ih =>
      have isWord := areWord c List.mem_cons_self
      rw [List.cons_append, splitWord, if_pos (by simp [isWord]),
        ih fun other member => areWord other (List.mem_cons_of_mem c member), List.getLastD_cons]
      rfl

/-- A word is over before a character that cannot be part of one. A sign is such a
character unless it may follow an `e`. -/
theorem splitWord_of_isSeparate {numeric : Bool} {before : Char} {rest : Text}
    (separate : IsSeparate rest) (ended : numeric = true → before ≠ 'e' ∧ before ≠ 'E') :
    splitWord numeric before rest = ([], rest) := by
  cases rest with
  | nil => rfl
  | cons c rest =>
      have apart := separate c rfl
      rw [splitWord, if_neg]
      cases numeric
      · simp [apart]
      · simp [apart, ended rfl]

theorem isWordChar_of_isDigit {c : Char} (isDigit : c.isDigit) : isWordChar c := by
  simp [isWordChar, Char.isAlphanum, isDigit]

theorem takeSign_of_beginsLiteral {c : Char} {rest : Text} (begins : beginsLiteral c) :
    takeSign (c :: rest) = (false, c :: rest) := by
  refine takeSign_eq_self ?_ ?_ <;> rintro rfl <;> cases begins

theorem ne_e_of_isDigit {c : Char} (isDigit : c.isDigit) : c ≠ 'e' ∧ c ≠ 'E' := by
  constructor <;> rintro rfl <;> cases isDigit

/-- The last character of a run satisfies what the one before the run and all of the run do. -/
theorem getLastD_of_forall {p : Char → Prop} {run : Text} {before : Char} (first : p before)
    (all : ∀ c ∈ run, p c) : p (run.getLastD before) := by
  induction run generalizing before with
  | nil => exact first
  | cons c run ih =>
      rw [List.getLastD_cons]
      exact ih (all c List.mem_cons_self) fun other member =>
        all other (List.mem_cons_of_mem c member)

/-- A run of digits and points is the rest of a word. -/
theorem splitWord_of_digits {run rest : Text} {before : Char} (nonempty : run ≠ [])
    (areDigits : ∀ c ∈ run, c.isDigit ∨ c = '.') (separate : IsSeparate rest) :
    splitWord true before (run ++ rest) = (run, rest) := by
  have areWord : ∀ c ∈ run, isWordChar c := by
    intro c member
    rcases areDigits c member with isDigit | rfl
    · exact isWordChar_of_isDigit isDigit
    · decide
  have notE : ∀ c ∈ run, c ≠ 'e' ∧ c ≠ 'E' := by
    intro c member
    rcases areDigits c member with isDigit | rfl
    · exact ne_e_of_isDigit isDigit
    · decide
  obtain ⟨first, others, rfl⟩ := List.exists_cons_of_ne_nil nonempty
  have ended :
      (first :: others).getLastD before ≠ 'e' ∧ (first :: others).getLastD before ≠ 'E' := by
    rw [List.getLastD_cons]
    exact getLastD_of_forall (p := fun c => c ≠ 'e' ∧ c ≠ 'E') (notE first List.mem_cons_self)
      fun c member => notE c (List.mem_cons_of_mem first member)
  rw [splitWord_append_of_forall areWord, splitWord_of_isSeparate separate fun _ => ended,
    List.append_nil]

/-- An exponent part is the rest of a word. -/
theorem splitWord_of_isExponent {exponent rest : Text} {before : Char}
    (isExponent : IsExponent exponent) (separate : IsSeparate rest) :
    splitWord true before (exponent ++ rest) = (exponent, rest) := by
  obtain ⟨e, sign, digits, rfl, isE, isSigned, nonempty, areDigits⟩ := isExponent
  have isWord : isWordChar e := by rcases isE with rfl | rfl <;> decide
  have onlyDigits : ∀ before, splitWord true before (digits ++ rest) = (digits, rest) :=
    fun _ => splitWord_of_digits nonempty (fun c member => .inl (areDigits c member)) separate
  have afterE : splitWord true e (sign ++ digits ++ rest) = (sign ++ digits, rest) := by
    rcases isSigned with rfl | rfl | rfl
    · exact onlyDigits e
    all_goals
      rw [List.append_assoc, List.singleton_append, splitWord,
        if_pos (by rcases isE with rfl | rfl <;> decide), onlyDigits]
      rfl
  rw [List.cons_append, splitWord, if_pos (by simp [isWord]), afterE]

/-- A literal is one word, whatever begins the word before it. -/
theorem splitWord_of_isLiteral {literal rest : Text} {value : Binary64} (before : Char)
    (isLiteral : IsLiteral literal value) (separate : IsSeparate rest) :
    splitWord true before (literal ++ rest) = (literal, rest) := by
  obtain ⟨⟨c, isFirst, begins⟩, reads⟩ := isLiteral
  obtain ⟨tail, rfl⟩ : ∃ tail, literal = c :: tail := List.head?_eq_some_iff.1 isFirst
  obtain ⟨mantissa, exponent, parts, areDigits, ending⟩ :=
    parts_of_readDecimal? (takeSign_of_beginsLiteral begins) reads
  have nonempty : mantissa ≠ [] := by
    rintro rfl
    rcases ending with rfl | ⟨e, sign, digits, rfl, isE, -⟩
    · cases parts
    · obtain ⟨rfl, -⟩ := List.cons.inj parts
      rcases isE with rfl | rfl <;> cases begins
  rw [parts]
  rcases ending with rfl | isExponent
  · rw [List.append_nil]
    exact splitWord_of_digits nonempty areDigits separate
  · have areWord : ∀ c ∈ mantissa, isWordChar c := by
      intro c member
      rcases areDigits c member with isDigit | rfl
      · exact isWordChar_of_isDigit isDigit
      · decide
    rw [List.append_assoc, splitWord_append_of_forall areWord,
      splitWord_of_isExponent isExponent separate]

/-- A name is one word. -/
theorem splitWord_of_isName {name rest : Text} (before : Char) (isName : IsName name)
    (separate : IsSeparate rest) : splitWord false before (name ++ rest) = (name, rest) := by
  have areWord : ∀ c ∈ name, isWordChar c := by
    intro c member
    have isIdentifier := isName.2 c member
    unfold isIdentifierChar at isIdentifier
    simp [isWordChar, isIdentifier]
  rw [splitWord_append_of_forall areWord, splitWord_of_isSeparate separate (by simp),
    List.append_nil]

/-- The rest of a word after its first character. -/
theorem splitWord_tail {numeric : Bool} {before c : Char} {tail rest : Text} (isWord : isWordChar c)
    (whole : splitWord numeric before (c :: tail ++ rest) = (c :: tail, rest)) :
    splitWord numeric c (tail ++ rest) = (tail, rest) := by
  rw [List.cons_append, splitWord, if_pos (by simp [isWord])] at whole
  obtain ⟨first, second⟩ := Prod.mk.inj whole
  exact Prod.ext (List.cons.inj first).2 second

/-! ## Texts fall into parts in one way -/

theorem isWordChar_of_isBlank {c : Char} (blank : isBlank c) : isWordChar c = false := by
  unfold isBlank at blank
  rw [List.contains_iff_mem] at blank
  have isChar := Char.ofNat_toNat c
  generalize c.toNat = code at blank isChar
  subst isChar
  revert code
  decide

theorem isWordChar_of_beginsLiteral {c : Char} (begins : beginsLiteral c) : isWordChar c := by
  unfold beginsLiteral at begins
  unfold isWordChar Char.isAlphanum
  grind

theorem isWordChar_of_isIdentifierStart {c : Char} (starts : isIdentifierStart c) :
    isWordChar c := by
  unfold isIdentifierStart at starts
  unfold isWordChar Char.isAlphanum
  grind

theorem beginsLiteral_of_isIdentifierStart {c : Char} (starts : isIdentifierStart c) :
    beginsLiteral c = false := by
  unfold isIdentifierStart at starts
  unfold beginsLiteral
  rw [Bool.or_eq_true, beq_iff_eq] at starts
  rw [Bool.or_eq_false_iff, beq_eq_false_iff_ne]
  rcases starts with isAlpha | rfl
  · refine ⟨?_, ?_⟩
    · unfold Char.isAlpha Char.isUpper Char.isLower at isAlpha
      unfold Char.isDigit
      grind
    · rintro rfl
      cases isAlpha
  · decide

/-- The operator that a character writes. -/
def operator? (c : Char) : Option Operator :=
  if c = '+' then some .plus
  else if c = '-' then some .minus
  else if c = '*' then some .times
  else if c = '/' then some .divided
  else none

@[simp]
theorem operator?_char (operator : Operator) : operator? operator.char = some operator := by
  cases operator <;> decide

/-- The first part of a text that begins with a visible character, and what follows it. -/
def nextPart? (c : Char) (rest : Text) : Option (Part × Text) :=
  if beginsLiteral c then
    let (word, after) := splitWord true c rest
    (readDecimal? (c :: word)).map fun value => (.literal value, after)
  else if isIdentifierStart c then
    let (word, after) := splitWord false c rest
    some (.name (c :: word), after)
  else if c = '(' then some (.opening, rest)
  else if c = ')' then some (.closing, rest)
  else (operator? c).bind fun operator =>
    match rest with
    | next :: _ =>
        if beginsLiteral next then
          let (word, after) := splitWord true c rest
          (readDecimal? word).map fun value => (.attached operator value, after)
        else some (.operator operator, rest)
    | [] => some (.operator operator, rest)

/-- The parts of a text, of which at most `bound` characters are read. -/
def parts? : (bound : Nat) → Text → Option (List Part)
  | _, [] => some []
  | 0, _ :: _ => none
  | bound + 1, c :: rest =>
      if isBlank c then parts? bound rest
      else (nextPart? c rest).bind fun (part, after) =>
        (parts? bound after).map (part :: ·)

theorem isBlank_of_isWordChar {c : Char} (isWord : isWordChar c) : isBlank c = false := by
  by_contra blank
  rw [Bool.not_eq_false] at blank
  rw [isWordChar_of_isBlank blank] at isWord
  cases isWord

/-- A visible character begins the first part of a text. -/
theorem parts?_cons {bound : Nat} {c : Char} {rest after : Text} {part : Part} {parts : List Part}
    (enough : (c :: rest).length ≤ bound) (visible : isBlank c = false)
    (next : nextPart? c rest = some (part, after)) (shorter : after.length ≤ rest.length)
    (others : ∀ {bound : Nat}, after.length ≤ bound → parts? bound after = some parts) :
    parts? bound (c :: rest) = some (part :: parts) := by
  cases bound with
  | zero => cases enough
  | succ less =>
      have fewer : rest.length ≤ less := Nat.le_of_succ_le_succ enough
      rw [parts?, if_neg (by simp [visible]), next, Option.bind_some]
      simp only [others (shorter.trans fewer), Option.map_some]

theorem isBlank_char (operator : Operator) : isBlank operator.char = false := by
  cases operator <;> decide

/-- An operator begins neither a number nor a name, and it is no parenthesis. -/
theorem nextPart?_char (operator : Operator) (rest : Text) :
    nextPart? operator.char rest =
      match rest with
      | next :: _ =>
          if beginsLiteral next then
            let (word, after) := splitWord true operator.char rest
            (readDecimal? word).map fun value => (.attached operator value, after)
          else some (.operator operator, rest)
      | [] => some (.operator operator, rest) := by
  cases operator <;> rfl

/-- A text that falls into parts is read as them. -/
theorem Written.parts?_eq {parts : List Part} {text : Text} (written : Written parts text)
    {bound : Nat} (enough : text.length ≤ bound) : parts? bound text = some parts := by
  induction written generalizing bound with
  | nil => cases bound <;> rfl
  | blank isBlank rest ih =>
      cases bound with
      | zero => cases enough
      | succ less =>
          rw [parts?, if_pos isBlank]
          exact ih (Nat.le_of_succ_le_succ enough)
  | @literal literal value others text isLiteral separate rest ih =>
      obtain ⟨⟨c, isFirst, begins⟩, reads⟩ := id isLiteral
      obtain ⟨tail, rfl⟩ : ∃ tail, literal = c :: tail := List.head?_eq_some_iff.1 isFirst
      have isWord := isWordChar_of_beginsLiteral begins
      rw [List.cons_append] at enough ⊢
      refine parts?_cons enough (isBlank_of_isWordChar isWord) ?_ (by simp) ih
      rw [nextPart?, if_pos begins,
        splitWord_tail isWord (splitWord_of_isLiteral c isLiteral separate)]
      simp [reads]
  | @name name others text isName separate rest ih =>
      obtain ⟨⟨c, isFirst, starts⟩, -⟩ := id isName
      obtain ⟨tail, rfl⟩ : ∃ tail, name = c :: tail := List.head?_eq_some_iff.1 isFirst
      have isWord := isWordChar_of_isIdentifierStart starts
      rw [List.cons_append] at enough ⊢
      refine parts?_cons enough (isBlank_of_isWordChar isWord) ?_ (by simp) ih
      rw [nextPart?, if_neg (by simp [beginsLiteral_of_isIdentifierStart starts]), if_pos starts,
        splitWord_tail isWord (splitWord_of_isName c isName separate)]
  | @operator operator others text apart rest ih =>
      refine parts?_cons enough (isBlank_char operator) ?_ le_rfl ih
      rw [nextPart?_char]
      cases text with
      | nil => rfl
      | cons next text => simp [apart next rfl]
  | @attached operator literal value others text isLiteral separate rest ih =>
      obtain ⟨⟨c, isFirst, begins⟩, reads⟩ := id isLiteral
      obtain ⟨tail, rfl⟩ : ∃ tail, literal = c :: tail := List.head?_eq_some_iff.1 isFirst
      refine parts?_cons enough (isBlank_char operator) ?_ (by simp; omega) ih
      rw [nextPart?_char, splitWord_of_isLiteral _ isLiteral separate]
      simp [begins, reads]
  | opening rest ih => exact parts?_cons enough (by decide) rfl le_rfl ih
  | closing rest ih => exact parts?_cons enough (by decide) rfl le_rfl ih

/-- A text falls into parts in one way only. -/
theorem Written.unique {first second : List Part} {text : Text} (inOneWay : Written first text)
    (inAnother : Written second text) : first = second :=
  Option.some.inj ((inOneWay.parts?_eq le_rfl).symm.trans (inAnother.parts?_eq le_rfl))

end Arithmetic

end AddonIndex.ClassConfig
