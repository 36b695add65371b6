import AddonIndex.ClassConfig.Read
import AddonIndex.Proofs.ClassConfig.Accepts
import AddonIndex.Proofs.ClassConfig.Arithmetic
import AddonIndex.Proofs.FileTree.Location
import AddonIndex.Proofs.Text.Encoding

/-!
# The text of an expression as a value

An expression is scanned, and its tokens are written down again as the text of
the value. The parts of the text come through one by one: names, operators and
parentheses as they are, numbers as their plain forms, which read back as the
same numbers. A sign right before a number is taken into the number. A minus
comes out again in front of it, a plus is lost.
-/

namespace AddonIndex.ClassConfig

open Arithmetic

/-! ## The tokens of an expression -/

/-- The tokens of a part. A sign right before a number is the sign of the number. -/
def Arithmetic.Part.tokens : Part → List Token
  | .literal value => [.number value]
  | .name text => [.word text]
  | .operator sign => [.other sign.char]
  | .attached .plus value => [.number value]
  | .attached .minus value => [.number value.negate]
  | .attached sign value => [.other sign.char, .number value]
  | .opening => [.other '(']
  | .closing => [.other ')']

/-- Scanning gives the tokens and goes on with the rest. -/
def Scans (text : Text) (tokens : List Token) (rest : Text) : Prop :=
  ∀ line, ∃ lexemes next, lexemes.map Lexeme.token = tokens ∧
    scanFrom line text = (scanFrom next rest).map (lexemes ++ ·)

theorem scans_refl (text : Text) : Scans text [] text := by
  intro line
  refine ⟨[], line, rfl, ?_⟩
  cases scanFrom line text <;> rfl

theorem Scans.trans {text middle rest : Text} {tokens others : List Token}
    (first : Scans text tokens middle) (second : Scans middle others rest) :
    Scans text (tokens ++ others) rest := by
  intro line
  obtain ⟨lexemes, next, isTokens, scans⟩ := first line
  obtain ⟨following, last, areOthers, scansOn⟩ := second next
  refine ⟨lexemes ++ following, last, by rw [List.map_append, isTokens, areOthers], ?_⟩
  rw [scans, scansOn]
  cases scanFrom last rest with
  | error failure => rfl
  | ok lexemes => exact congrArg Except.ok (List.append_assoc _ _ _).symm

theorem scans_blank {c : Char} (blank : isBlank c) (rest : Text) : Scans (c :: rest) [] rest := by
  intro line
  rw [scanFrom]
  split
  · obtain ⟨lexemes, next, isTokens, scans⟩ := scans_refl rest (line + 1)
    exact ⟨lexemes, next, isTokens, scans⟩
  · exact scans_refl rest line

theorem scanFrom_token {line : Nat} {c : Char} {rest after : Text} {token : Token}
    (visible : isBlank c = false) (reads : readToken? c rest = some (token, after)) :
    scanFrom line (c :: rest) =
      (scanFrom (line + token.lineFeeds) after).map (⟨token, line⟩ :: ·) := by
  have notFeed : c ≠ '\n' := by
    rintro rfl
    cases visible
  rw [scanFrom, if_neg notFeed, if_neg (by simp [visible])]
  split
  · rename_i missing
    rw [reads] at missing
    cases missing
  · rename_i found
    rw [reads] at found
    obtain ⟨rfl, rfl⟩ := Prod.mk.inj (Option.some.inj found)
    cases scanFrom (line + token.lineFeeds) after <;> rfl

theorem scans_token {c : Char} {rest after : Text} {token : Token} (visible : isBlank c = false)
    (reads : readToken? c rest = some (token, after)) : Scans (c :: rest) [token] after :=
  fun line => ⟨[⟨token, line⟩], line + token.lineFeeds, rfl, scanFrom_token visible reads⟩

/-- A character that begins a word is read with the rest of the word. -/
theorem readToken?_of_beginsWord {c : Char} {rest word after : Text} (begins : beginsWord c rest)
    (notSum : c = '+' → rest.head? ≠ some '=')
    (split : splitWord (beginsNumber c) c rest = (word, after)) :
    readToken? c rest = some (classifyWord (c :: word), after) := by
  unfold readToken?
  split
  all_goals try (revert begins; simp [beginsWord, isWordChar, isSign]; done)
  rw [if_neg fun sum => notSum sum.1 sum.2, if_pos begins, split]

/-- A sign that is not right before a number, or another operator, stands for itself. -/
theorem readToken?_operator (operator : Operator) {rest : Text} (notEquals : rest.head? ≠ some '=')
    (apart : operator.isSum → ∀ c ∈ rest.head?, beginsLiteral c = false) :
    readToken? operator.char rest = some (.other operator.char, rest) := by
  have noWord : beginsWord operator.char rest = false := by
    cases rest with
    | nil => cases operator <;> rfl
    | cons next rest =>
        cases operator with
        | plus => exact apart rfl next rfl
        | minus => exact apart rfl next rfl
        | times => rfl
        | divided => rfl
  cases operator
  all_goals
    unfold readToken?
    simp only [Operator.char] at noWord ⊢
    simp [noWord, notEquals]

theorem eq_of_isSign {c : Char} (sign : isSign c) : c = '-' ∨ c = '+' := by
  unfold isSign at sign
  rwa [Bool.or_eq_true, beq_iff_eq, beq_iff_eq] at sign

theorem classifyWord_name {name : Text} (isName : IsName name) :
    classifyWord name = .word name := by
  obtain ⟨⟨c, isFirst, starts⟩, -⟩ := isName
  obtain ⟨tail, rfl⟩ : ∃ tail, name = c :: tail := List.head?_eq_some_iff.1 isFirst
  have notSign : isSign c = false := by
    cases sign : isSign c with
    | false => rfl
    | true => rcases eq_of_isSign sign with rfl | rfl <;> cases starts
  have notNumber := beginsLiteral_of_isIdentifierStart starts
  unfold beginsLiteral at notNumber
  unfold classifyWord
  rw [List.dropWhile_cons_of_neg (by simp [notSign])]
  simp [notNumber]

/-- The sign before a literal is that of the number. -/
theorem classifyWord_of_isLiteral {literal : Text} {value : Binary64}
    (isLiteral : IsLiteral literal value) :
    classifyWord literal = .number value ∧ classifyWord ('+' :: literal) = .number value ∧
      classifyWord ('-' :: literal) = .number value.negate := by
  obtain ⟨⟨c, isFirst, begins⟩, reads⟩ := isLiteral
  obtain ⟨tail, rfl⟩ : ∃ tail, literal = c :: tail := List.head?_eq_some_iff.1 isFirst
  have notSign : isSign c = false := by
    cases sign : isSign c with
    | false => rfl
    | true => rcases eq_of_isSign sign with rfl | rfl <;> cases begins
  have dropped : (c :: tail).dropWhile isSign = c :: tail :=
    List.dropWhile_cons_of_neg (by simp [notSign])
  obtain ⟨magnitude, bound, rfl, positive, negative⟩ :=
    Binary64.exists_magnitude_of_readDecimal? (takeSign_of_beginsLiteral begins) reads
  unfold beginsLiteral at begins
  rw [Binary64.negate_ofMagnitude_false bound]
  refine ⟨?_, ?_, ?_⟩
  · simp [classifyWord, dropped, begins, reads]
  · rw [classifyWord, List.dropWhile_cons_of_pos rfl, dropped]
    simp [begins, positive]
  · rw [classifyWord, List.dropWhile_cons_of_pos rfl, dropped]
    simp [begins, negative]

/-- What follows a text of parts is no equals sign if the text has none at its end. -/
theorem Arithmetic.Written.head_ne_equals {parts : List Part} {text : Text}
    (written : Written parts text) : text.head? ≠ some '=' := by
  have notWord : isWordChar '=' = false := by decide
  cases written with
  | nil => simp
  | blank isBlank rest =>
      rintro isEquals
      obtain rfl := Option.some.inj isEquals
      cases isBlank
  | literal isLiteral separate rest =>
      obtain ⟨⟨c, isFirst, begins⟩, -⟩ := isLiteral
      obtain ⟨tail, rfl⟩ := List.head?_eq_some_iff.1 isFirst
      rintro isEquals
      obtain rfl := Option.some.inj isEquals
      cases begins
  | name isName separate rest =>
      obtain ⟨⟨c, isFirst, starts⟩, -⟩ := isName
      obtain ⟨tail, rfl⟩ := List.head?_eq_some_iff.1 isFirst
      rintro isEquals
      obtain rfl := Option.some.inj isEquals
      cases starts
  | operator operator => cases operator <;> simp [Operator.char]
  | attached operator => cases operator <;> simp [Operator.char]
  | opening rest => simp
  | closing rest => simp

theorem scans_literal {literal rest : Text} {value : Binary64} (isLiteral : IsLiteral literal value)
    (separate : IsSeparate rest) : Scans (literal ++ rest) [.number value] rest := by
  obtain ⟨⟨c, isFirst, begins⟩, -⟩ := id isLiteral
  obtain ⟨tail, rfl⟩ : ∃ tail, literal = c :: tail := List.head?_eq_some_iff.1 isFirst
  have isWord := isWordChar_of_beginsLiteral begins
  have numeric : beginsNumber c = true := by
    cases starts : isIdentifierStart c with
    | true =>
        rw [beginsLiteral_of_isIdentifierStart starts] at begins
        cases begins
    | false =>
        unfold isIdentifierStart at starts
        unfold beginsNumber
        rw [starts]
        rfl
  have whole := splitWord_of_isLiteral c isLiteral separate
  have split := splitWord_tail isWord whole
  rw [← numeric] at split
  refine scans_token (isBlank_of_isWordChar isWord) ?_
  rw [← (classifyWord_of_isLiteral isLiteral).1]
  exact readToken?_of_beginsWord (by simp [beginsWord, isWord]) (by rintro rfl; cases begins) split

theorem scans_name {name rest : Text} (isName : IsName name) (separate : IsSeparate rest) :
    Scans (name ++ rest) [.word name] rest := by
  obtain ⟨⟨c, isFirst, starts⟩, -⟩ := id isName
  obtain ⟨tail, rfl⟩ : ∃ tail, name = c :: tail := List.head?_eq_some_iff.1 isFirst
  have isWord := isWordChar_of_isIdentifierStart starts
  have notNumeric : beginsNumber c = false := by
    unfold beginsNumber
    unfold isIdentifierStart at starts
    rw [starts]
    rfl
  have split := splitWord_tail isWord (splitWord_of_isName c isName separate)
  rw [← notNumeric] at split
  refine scans_token (isBlank_of_isWordChar isWord) ?_
  rw [← classifyWord_name isName]
  exact readToken?_of_beginsWord (by simp [beginsWord, isWord]) (by rintro rfl; cases starts) split

/-- A sign right before a number is scanned as one token with it. -/
theorem scans_sign {sign : Char} {literal rest : Text} {value : Binary64} {token : Token}
    (isSign : sign = '+' ∨ sign = '-') (isLiteral : IsLiteral literal value)
    (separate : IsSeparate rest) (classified : classifyWord (sign :: literal) = token) :
    Scans (sign :: (literal ++ rest)) [token] rest := by
  obtain ⟨⟨c, isFirst, begins⟩, -⟩ := id isLiteral
  obtain ⟨tail, rfl⟩ : ∃ tail, literal = c :: tail := List.head?_eq_some_iff.1 isFirst
  have whole := splitWord_of_isLiteral sign isLiteral separate
  have notEquals : c ≠ '=' := by
    rintro rfl
    cases begins
  unfold beginsLiteral at begins
  refine scans_token (by rcases isSign with rfl | rfl <;> decide) ?_
  rw [← classified]
  refine readToken?_of_beginsWord ?_ (fun _ => by simpa using notEquals) ?_
  · rcases isSign with rfl | rfl <;> simp [beginsWord, begins] <;> decide
  · rcases isSign with rfl | rfl <;> exact whole

theorem isSeparate_append {text : Text} (separate : IsSeparate text) (after : Text) :
    IsSeparate (text ++ ';' :: after) := by
  cases text with
  | nil =>
      intro c isFirst
      obtain rfl := Option.some.inj isFirst
      decide
  | cons c text => exact separate

/-- An expression before a semicolon is scanned part by part. -/
theorem Arithmetic.Written.scans {parts : List Part} {text : Text} (written : Written parts text)
    (after : Text) :
    Scans (text ++ ';' :: after) (parts.flatMap Part.tokens) (';' :: after) := by
  induction written with
  | nil => exact scans_refl _
  | blank isBlank rest ih => exact (scans_blank isBlank _).trans ih
  | literal isLiteral separate rest ih =>
      rw [List.append_assoc]
      exact (scans_literal isLiteral (isSeparate_append separate after)).trans ih
  | name isName separate rest ih =>
      rw [List.append_assoc]
      exact (scans_name isName (isSeparate_append separate after)).trans ih
  | @operator operator others text apart rest ih =>
      refine (scans_token (isBlank_char operator) (readToken?_operator operator ?_ ?_)).trans ih
      · cases text with
        | nil => simp
        | cons c text => exact rest.head_ne_equals
      · intro _
        cases text with
        | nil =>
          intro c isFirst
          obtain rfl := Option.some.inj isFirst
          decide
        | cons c text => exact apart
  | @attached operator literal value others text isLiteral separate rest ih =>
      have ended := isSeparate_append separate after
      have classified := classifyWord_of_isLiteral isLiteral
      rw [List.cons_append, List.append_assoc, List.flatMap_cons]
      have apart : (literal ++ (text ++ ';' :: after)).head? ≠ some '=' := by
        obtain ⟨⟨c, isFirst, begins⟩, -⟩ := isLiteral
        obtain ⟨tail, rfl⟩ := List.head?_eq_some_iff.1 isFirst
        rintro isEquals
        obtain rfl := Option.some.inj isEquals
        cases begins
      cases operator with
      | plus => exact (scans_sign (.inl rfl) isLiteral ended classified.2.1).trans ih
      | minus => exact (scans_sign (.inr rfl) isLiteral ended classified.2.2).trans ih
      | times =>
          have alone := readToken?_operator .times apart (by simp [Operator.isSum])
          exact ((scans_token (by decide) alone).trans (scans_literal isLiteral ended)).trans ih
      | divided =>
          have alone := readToken?_operator .divided apart (by simp [Operator.isSum])
          exact ((scans_token (by decide) alone).trans (scans_literal isLiteral ended)).trans ih
  | opening rest ih => exact (scans_token (by decide) rfl).trans ih
  | closing rest ih => exact (scans_token (by decide) rfl).trans ih

/-! ## The text of the tokens -/

/-- The name that an infinite number is written as. -/
def infinityName : Text := "inf"

theorem isName_infinityName : IsName infinityName := ⟨⟨'i', rfl, by decide⟩, List.all_eq_true.1 rfl⟩

/-- A number in the text of a value: itself if it is finite. -/
def Arithmetic.Part.ofNumber (value : Binary64) : Part :=
  if value.isFinite then .literal value else .name infinityName

/-- What a part has become in the text of a value. -/
def Arithmetic.Part.printed : Part → List Part
  | .literal value => [.ofNumber value]
  | .attached .plus value => [.ofNumber value]
  | .attached .minus value =>
      if value.isFinite then [.attached .minus value]
      else [.operator .minus, .name infinityName]
  | .attached .times value => [.operator .times, .ofNumber value]
  | .attached .divided value => [.operator .divided, .ofNumber value]
  | part => [part]

/-- What the scanner relies on: names are names, and numbers have no sign. -/
def Arithmetic.Part.IsProper : Part → Prop
  | .literal value => ∃ magnitude ≤ Binary64.infinityBits, value = .ofMagnitude false magnitude
  | .attached _ value => ∃ magnitude ≤ Binary64.infinityBits, value = .ofMagnitude false magnitude
  | .name text => IsName text
  | _ => True

theorem Arithmetic.Written.isProper {parts : List Part} {text : Text}
    (written : Written parts text) : ∀ part ∈ parts, part.IsProper := by
  have unsigned : ∀ {literal : Text} {value : Binary64}, IsLiteral literal value →
      ∃ magnitude ≤ Binary64.infinityBits, value = .ofMagnitude false magnitude := by
    rintro literal value ⟨⟨c, isFirst, begins⟩, reads⟩
    obtain ⟨tail, rfl⟩ := List.head?_eq_some_iff.1 isFirst
    obtain ⟨magnitude, bound, isValue, -⟩ :=
      Binary64.exists_magnitude_of_readDecimal? (takeSign_of_beginsLiteral begins) reads
    exact ⟨magnitude, bound, isValue⟩
  induction written with
  | nil => simp
  | blank isBlank rest ih => exact ih
  | literal isLiteral separate rest ih => exact List.forall_mem_cons.2 ⟨unsigned isLiteral, ih⟩
  | name isName separate rest ih => exact List.forall_mem_cons.2 ⟨isName, ih⟩
  | operator operator apart rest ih => exact List.forall_mem_cons.2 ⟨trivial, ih⟩
  | attached operator isLiteral separate rest ih =>
      exact List.forall_mem_cons.2 ⟨unsigned isLiteral, ih⟩
  | opening rest ih => exact List.forall_mem_cons.2 ⟨trivial, ih⟩
  | closing rest ih => exact List.forall_mem_cons.2 ⟨trivial, ih⟩

/-- Before a blank and at the end the text falls into the parts. -/
def Prints (text : Text) (parts : List Part) : Prop :=
  ∀ ⦃rest : Text⦄ ⦃others : List Part⦄, (∀ c ∈ rest.head?, c = ' ') → Written others rest →
    Written (parts ++ others) (text ++ rest)

theorem isSeparate_of_blank {rest : Text} (blank : ∀ c ∈ rest.head?, c = ' ') :
    IsSeparate rest := by
  intro c isFirst
  rw [blank c isFirst]
  decide

theorem prints_name {name : Text} (isName : IsName name) : Prints name [.name name] :=
  fun _ _ blank rest => .name isName (isSeparate_of_blank blank) rest

theorem prints_operator (operator : Operator) : Prints [operator.char] [.operator operator] := by
  intro rest others blank written
  refine .operator operator (fun c isFirst => ?_) written
  rw [blank c isFirst]
  decide

/-- The texts of tokens, with single blanks between them, fall into the parts of the tokens. -/
theorem written_joinWith {items : List (Text × List Part)}
    (prints : ∀ item ∈ items, Prints item.1 item.2) :
    Written (items.flatMap Prod.snd) (Text.joinWith [' '] (items.map Prod.fst)) := by
  induction items with
  | nil => exact .nil
  | cons item items ih =>
      have others := ih fun other member => prints other (List.mem_cons_of_mem item member)
      have first := prints item List.mem_cons_self
      cases items with
      | nil =>
          have alone := first (show ∀ c ∈ ([] : Text).head?, c = ' ' by simp) .nil
          simpa [Text.joinWith] using alone
      | cons next items =>
          have spaced := first (by simp) (.blank (show isBlank ' ' by decide) others)
          simpa [Text.joinWith, List.intercalate_cons_cons] using spaced

theorem isLiteral_plain {x : Binary64} (finite : x.isFinite) (positive : x.isNegative = false) :
    IsLiteral x.plain x := by
  refine ⟨?_, Binary64.readDecimal?_plain x finite⟩
  obtain ⟨c, rest, isPositional, isDigit⟩ := x.shortest.exists_digit_positional
  unfold Binary64.plain Binary64.signed
  rw [if_pos finite, positive, isPositional]
  exact ⟨c, rfl, by simp [beginsLiteral, isDigit]⟩

theorem isFinite_ofMagnitude {negative : Bool} {magnitude : Nat}
    (bound : magnitude ≤ Binary64.infinityBits) :
    (Binary64.ofMagnitude negative magnitude).isFinite =
      decide (magnitude < Binary64.infinityBits) := by
  unfold Binary64.isFinite
  rw [Binary64.magnitude_ofMagnitude (bound.trans_lt (by decide))]

/-- A number without a sign is printed as itself, or as the name of infinity. -/
theorem prints_number {magnitude : Nat} (bound : magnitude ≤ Binary64.infinityBits) :
    Prints (Binary64.ofMagnitude false magnitude).plain
      [.ofNumber (.ofMagnitude false magnitude)] := by
  have less : magnitude < Binary64.signWeight := bound.trans_lt (by decide)
  cases finite : (Binary64.ofMagnitude false magnitude).isFinite with
  | true =>
      have isLiteral := isLiteral_plain finite (Binary64.isNegative_ofMagnitude less)
      rw [Part.ofNumber, if_pos finite]
      exact fun _ _ blank rest => .literal isLiteral (isSeparate_of_blank blank) rest
  | false =>
      rw [isFinite_ofMagnitude bound, decide_eq_false_iff_not] at finite
      obtain rfl : magnitude = Binary64.infinityBits := by omega
      exact prints_name isName_infinityName

/-- A negative number is printed with a minus sign right before it. -/
theorem prints_negative {magnitude : Nat} (bound : magnitude ≤ Binary64.infinityBits) :
    Prints (Binary64.ofMagnitude true magnitude).plain
      (Part.attached .minus (.ofMagnitude false magnitude)).printed := by
  have less : magnitude < Binary64.signWeight := bound.trans_lt (by decide)
  rw [Binary64.plain_ofMagnitude_true bound, Part.printed]
  cases finite : (Binary64.ofMagnitude false magnitude).isFinite with
  | true =>
      have isLiteral := isLiteral_plain finite (Binary64.isNegative_ofMagnitude less)
      exact fun _ _ blank rest => .attached .minus isLiteral (isSeparate_of_blank blank) rest
  | false =>
      rw [isFinite_ofMagnitude bound, decide_eq_false_iff_not] at finite
      obtain rfl : magnitude = Binary64.infinityBits := by omega
      intro rest others blank written
      refine .operator .minus (fun c isFirst => ?_)
        (.name isName_infinityName (isSeparate_of_blank blank) written)
      obtain rfl := Option.some.inj isFirst
      decide

/-- The tokens of a part, each with the parts that its text falls into. -/
theorem exists_items {part : Part} (proper : part.IsProper) :
    ∃ items : List (Text × List Part), items.map Prod.fst = part.tokens.map Token.render ∧
      items.flatMap Prod.snd = part.printed ∧ ∀ item ∈ items, Prints item.1 item.2 := by
  have single : ∀ {text : Text} {parts : List Part}, Prints text parts →
      ∀ item ∈ [(text, parts)], Prints item.1 item.2 := fun prints item member => by
    rw [List.mem_singleton.1 member]
    exact prints
  cases part with
  | literal value =>
      obtain ⟨magnitude, bound, rfl⟩ := proper
      exact ⟨_, rfl, by simp [Part.printed], single (prints_number bound)⟩
  | name name => exact ⟨_, rfl, by simp [Part.printed], single (prints_name proper)⟩
  | operator operator => exact ⟨_, rfl, by simp [Part.printed], single (prints_operator operator)⟩
  | attached operator value =>
      obtain ⟨magnitude, bound, rfl⟩ := proper
      have separately : ∀ item ∈ [([operator.char], [Part.operator operator]),
          ((Binary64.ofMagnitude false magnitude).plain,
            [Part.ofNumber (.ofMagnitude false magnitude)])], Prints item.1 item.2 :=
        List.forall_mem_cons.2 ⟨prints_operator operator, single (prints_number bound)⟩
      cases operator with
      | plus => exact ⟨_, rfl, by simp [Part.printed], single (prints_number bound)⟩
      | minus =>
          have negative : Prints (Binary64.ofMagnitude false magnitude).negate.plain
              (Part.attached .minus (.ofMagnitude false magnitude)).printed := by
            rw [Binary64.negate_ofMagnitude_false bound]
            exact prints_negative bound
          exact ⟨[(_, (Part.attached .minus (.ofMagnitude false magnitude)).printed)], rfl,
            List.append_nil _, single negative⟩
      | times => exact ⟨_, rfl, rfl, separately⟩
      | divided => exact ⟨_, rfl, rfl, separately⟩
  | opening =>
      exact ⟨[(['('], [.opening])], rfl, rfl, single fun _ _ _ rest => .opening rest⟩
  | closing =>
      exact ⟨[([')'], [.closing])], rfl, rfl, single fun _ _ _ rest => .closing rest⟩

/-- The text of the tokens of an expression falls into what has become of its parts. -/
theorem written_runText {parts : List Part} (proper : ∀ part ∈ parts, part.IsProper) :
    Written (parts.flatMap Part.printed) (runText (parts.flatMap Part.tokens)) := by
  have collected : ∃ items : List (Text × List Part),
      items.map Prod.fst = (parts.flatMap Part.tokens).map Token.render ∧
        items.flatMap Prod.snd = parts.flatMap Part.printed ∧
        ∀ item ∈ items, Prints item.1 item.2 := by
    induction parts with
    | nil => exact ⟨[], rfl, rfl, by simp⟩
    | cons part parts ih =>
        obtain ⟨first, firstTexts, firstParts, firstPrints⟩ :=
          exists_items (proper part List.mem_cons_self)
        obtain ⟨items, texts, itemParts, prints⟩ :=
          ih fun other member => proper other (List.mem_cons_of_mem part member)
        refine ⟨first ++ items, ?_, ?_, fun item member => ?_⟩
        · rw [List.map_append, firstTexts, texts, List.flatMap_cons, List.map_append]
        · rw [List.flatMap_append, firstParts, itemParts, List.flatMap_cons]
        · exact (List.mem_append.1 member).elim (firstPrints item) (prints item)
  obtain ⟨items, texts, itemParts, prints⟩ := collected
  have written := written_joinWith prints
  rw [texts, itemParts] at written
  exact written

/-! ## What the text means -/

/-- The numbers of a list of parts. -/
def literalsOf (parts : List Part) : List Binary64 :=
  (parts.flatMap Part.symbols).filterMap Symbol.literal?

theorem literalsOf_cons (part : Part) (parts : List Part) :
    literalsOf (part :: parts) = literalsOf [part] ++ literalsOf parts := by
  simp [literalsOf]

theorem literalsOf_append (first second : List Part) :
    literalsOf (first ++ second) = literalsOf first ++ literalsOf second := by
  simp [literalsOf]

theorem literalsOf_ofNumber (value : Binary64) :
    literalsOf [.ofNumber value] = if value.isFinite then [value] else [] := by
  unfold Part.ofNumber
  split <;> rfl

/-- Printing a part loses its number if the number is infinite. -/
theorem literalsOf_printed (part : Part) :
    literalsOf part.printed = (literalsOf [part]).filter Binary64.isFinite := by
  have filtered : ∀ value : Binary64,
      [value].filter Binary64.isFinite = if value.isFinite then [value] else [] := fun value => by
    simp [List.filter_cons]
  cases part with
  | literal value => exact (literalsOf_ofNumber value).trans (filtered value).symm
  | attached operator value =>
      refine Eq.trans ?_ (filtered value).symm
      cases operator with
      | plus => exact literalsOf_ofNumber value
      | minus =>
          rw [Part.printed]
          split <;> rfl
      | times =>
          rw [Part.printed, literalsOf_cons, literalsOf_ofNumber]
          rfl
      | divided =>
          rw [Part.printed, literalsOf_cons, literalsOf_ofNumber]
          rfl
  | name name => rfl
  | operator operator => rfl
  | opening => rfl
  | closing => rfl

theorem literalsOf_flatMap_printed (parts : List Part) :
    literalsOf (parts.flatMap Part.printed) = (literalsOf parts).filter Binary64.isFinite := by
  induction parts with
  | nil => rfl
  | cons part parts ih =>
      rw [List.flatMap_cons, literalsOf_append, ih, literalsOf_printed, ← List.filter_append,
        ← literalsOf_cons]

theorem steps?_ofNumber (needsOperand : Bool) (value : Binary64) :
    steps? needsOperand (Part.ofNumber value).symbols =
      steps? needsOperand [.literal value] := by
  unfold Part.ofNumber
  split <;> rfl

/-- Unless it is a plus right before a number, a part is followed by the same before and after
printing. -/
theorem steps?_printed {part : Part} (kept : ∀ value, part ≠ .attached .plus value)
    (needsOperand : Bool) :
    steps? needsOperand (part.printed.flatMap Part.symbols) = steps? needsOperand part.symbols := by
  cases part with
  | literal value =>
      rw [Part.printed, List.flatMap_singleton]
      exact steps?_ofNumber needsOperand value
  | attached operator value =>
      cases operator with
      | plus => exact absurd rfl (kept value)
      | minus =>
          rw [Part.printed]
          split <;> rfl
      | times =>
          rw [Part.printed, List.flatMap_cons, List.flatMap_singleton, steps?_append]
          simp only [steps?_ofNumber]
          exact (steps?_append needsOperand [.operator .times] [.literal value]).symm
      | divided =>
          rw [Part.printed, List.flatMap_cons, List.flatMap_singleton, steps?_append]
          simp only [steps?_ofNumber]
          exact (steps?_append needsOperand [.operator .divided] [.literal value]).symm
  | name name => rfl
  | operator operator => rfl
  | opening => rfl
  | closing => rfl

/-- Without the plus right before it a number stands where none can. -/
theorem not_mem_of_steps? {parts : List Part} {needsOperand next last : Bool}
    (source : steps? needsOperand (parts.flatMap Part.symbols) = some next)
    (printed : steps? needsOperand ((parts.flatMap Part.printed).flatMap Part.symbols) = some last)
    (value : Binary64) : .attached .plus value ∉ parts := by
  induction parts generalizing needsOperand with
  | nil => simp
  | cons part parts ih =>
      rw [List.flatMap_cons, steps?_append] at source
      rw [List.flatMap_cons, List.flatMap_append, steps?_append] at printed
      obtain ⟨middle, first, others⟩ := Option.bind_eq_some_iff.1 source
      by_cases loses : ∃ value, part = .attached .plus value
      · obtain ⟨value, rfl⟩ := loses
        rw [Part.printed, List.flatMap_singleton, steps?_ofNumber] at printed
        cases needsOperand
        · cases printed
        · cases first
      · rw [steps?_printed (fun value same => loses ⟨value, same⟩), first] at printed
        refine List.not_mem_cons_of_ne_of_not_mem (fun same => loses ⟨value, same.symm⟩) ?_
        exact ih others printed

/-- A part without a loss has the same symbols before and after printing. -/
theorem symbols_printed {part : Part} (finite : ∀ value ∈ literalsOf [part], value.isFinite)
    (kept : ∀ value, part ≠ .attached .plus value) :
    part.printed.flatMap Part.symbols = part.symbols := by
  cases part with
  | literal value =>
      have isFinite := finite value (List.mem_singleton.2 rfl)
      rw [Part.printed, Part.ofNumber, if_pos isFinite]
      rfl
  | attached operator value =>
      have isFinite := finite value (List.mem_singleton.2 rfl)
      cases operator with
      | plus => exact absurd rfl (kept value)
      | minus =>
          rw [Part.printed, if_pos isFinite]
          rfl
      | times =>
          rw [Part.printed, Part.ofNumber, if_pos isFinite]
          rfl
      | divided =>
          rw [Part.printed, Part.ofNumber, if_pos isFinite]
          rfl
  | name name => rfl
  | operator operator => rfl
  | opening => rfl
  | closing => rfl

theorem symbols_flatMap_printed {parts : List Part}
    (finite : ∀ value ∈ literalsOf parts, value.isFinite)
    (kept : ∀ value, .attached .plus value ∉ parts) :
    (parts.flatMap Part.printed).flatMap Part.symbols = parts.flatMap Part.symbols := by
  induction parts with
  | nil => rfl
  | cons part parts ih =>
      rw [literalsOf_cons] at finite
      rw [List.flatMap_cons, List.flatMap_append, List.flatMap_cons,
        ih (fun value member => finite value (List.mem_append_right _ member))
          (fun value member => kept value (List.mem_cons_of_mem part member)),
        symbols_printed (fun value member => finite value (List.mem_append_left _ member))
          (fun value same => kept value (same ▸ List.mem_cons_self))]

/-- The text of the tokens of an expression means the same as the expression exactly if all of
its numbers are finite and no plus stands right before a number. -/
theorem reads_runText_iff {parts : List Part} {text : Text} {e : Expression}
    (written : Written parts text) (forms : Forms .sum (parts.flatMap Part.symbols) e) :
    Reads (runText (parts.flatMap Part.tokens)) e ↔
      (∀ value ∈ e.literals, value.isFinite) ∧ ∀ value, .attached .plus value ∉ parts := by
  have printed := written_runText written.isProper
  constructor
  · rintro ⟨others, otherWritten, otherForms⟩
    obtain rfl := otherWritten.unique printed
    refine ⟨?_, not_mem_of_steps? forms.steps?_eq otherForms.steps?_eq⟩
    have same : literalsOf (parts.flatMap Part.printed) = literalsOf parts :=
      otherForms.literals_eq.trans forms.literals_eq.symm
    rw [literalsOf_flatMap_printed, List.filter_eq_self] at same
    rw [← forms.literals_eq]
    exact same
  · rintro ⟨finite, kept⟩
    refine ⟨_, printed, ?_⟩
    rw [← forms.literals_eq] at finite
    rw [symbols_flatMap_printed finite kept]
    exact forms

/-! ## Reading an assignment of an expression -/

/-- The text of a value that is an expression or a number. -/
def Value.expressionText? : Value → Option Text
  | raw text => some text
  | number value => some value.plain
  | _ => none

theorem expressionText?_runValue {run : List Token} (noString : ∀ text, .string text ∉ run) :
    (runValue run).expressionText? = some (runText run) := by
  match run with
  | [] => rfl
  | [token] =>
      cases token with
      | string text => exact absurd List.mem_cons_self (noString text)
      | number value =>
          simp [runValue, Token.literal?, Value.expressionText?, runText, Token.render,
            Text.joinWith]
      | _ => rfl
  | _ :: _ :: _ => rfl

/-- A token of an expression is a word, a number, or another character. -/
theorem tokens_of_part {part : Part} {token : Token} (member : token ∈ part.tokens) :
    (∃ name, token = .word name) ∨ (∃ value, token = .number value) ∨ ∃ c, token = .other c := by
  unfold Part.tokens at member
  split at member <;> simp at member <;> grind

theorem tokens_ne_nil (part : Part) : part.tokens ≠ [] := by
  unfold Part.tokens
  split <;> simp

theorem scans_blanks {blanks : Text} (areBlank : ∀ c ∈ blanks, isBlank c) (rest : Text) :
    Scans (blanks ++ rest) [] rest := by
  induction blanks with
  | nil => exact scans_refl rest
  | cons c blanks ih =>
      exact (scans_blank (areBlank c List.mem_cons_self) _).trans
        (ih fun other member => areBlank other (List.mem_cons_of_mem c member))

/-- The text assigns an expression to a name: `name = expression;` with blanks before and after
the name and at the end. -/
def AssignsTo (text name expression : Text) : Prop :=
  ∃ before gap after, (∀ c ∈ before, isBlank c) ∧ (∀ c ∈ gap, isBlank c) ∧
    (∀ c ∈ after, isBlank c) ∧
    text = before ++ (name ++ (gap ++ '=' :: (expression ++ ';' :: after)))

theorem scans_assignment {text name expression : Text} {parts : List Part}
    (assigns : AssignsTo text name expression) (isName : IsName name)
    (written : Written parts expression) :
    Scans text (.word name :: .equals :: (parts.flatMap Part.tokens ++ [.semicolon])) [] := by
  obtain ⟨before, gap, after, beforeBlank, gapBlank, afterBlank, rfl⟩ := assigns
  have separate : IsSeparate (gap ++ '=' :: (expression ++ ';' :: after)) := by
    cases gap with
    | nil =>
        intro c isFirst
        obtain rfl := Option.some.inj isFirst
        decide
    | cons c gap =>
        intro c isFirst
        obtain rfl := Option.some.inj isFirst
        exact isWordChar_of_isBlank (gapBlank _ List.mem_cons_self)
  have equals :
      Scans ('=' :: (expression ++ ';' :: after)) [.equals] (expression ++ ';' :: after) :=
    scans_token (by decide) rfl
  have ending : Scans (';' :: after) [.semicolon] [] := by
    have blanks := scans_blanks afterBlank []
    rw [List.append_nil] at blanks
    exact (scans_token (by decide) rfl).trans blanks
  exact (scans_blanks beforeBlank _).trans <| (scans_name isName separate).trans <|
    (scans_blanks gapBlank _).trans <| equals.trans <| (written.scans after).trans ending

/-- An assignment of an expression is read as one, with the text of the tokens as its value. -/
theorem readText_assignment {path : Path} {text name expression : Text} {parts : List Part}
    {e : Expression} (assigns : AssignsTo text name expression) (isName : IsName name)
    (notClass : name ≠ classKeyword) (notDeletion : name ≠ deleteKeyword)
    (written : Written parts expression) (forms : Forms .sum (parts.flatMap Part.symbols) e) :
    readText path text = .ok
      { assignments := [{ name, isArray := false, appends := false
                          value := runValue (parts.flatMap Part.tokens) }] } := by
  obtain ⟨lexemes, next, isTokens, scanned⟩ := scans_assignment assigns isName written 1
  have nonempty : parts.flatMap Part.tokens ≠ [] := by
    obtain ⟨part, others, rfl⟩ : ∃ part others, parts = part :: others := by
      refine List.exists_cons_of_ne_nil ?_
      rintro rfl
      cases forms.steps?_eq
    rw [List.flatMap_cons]
    exact List.append_ne_nil_of_left_ne_nil (tokens_ne_nil part) _
  have stands : ∀ token ∈ parts.flatMap Part.tokens, token.StandsInRun false := by
    intro token member
    obtain ⟨part, -, inPart⟩ := List.mem_flatMap.1 member
    rcases tokens_of_part inPart with ⟨name, rfl⟩ | ⟨value, rfl⟩ | ⟨c, rfl⟩ <;>
      simp [Token.StandsInRun]
  let items : ItemsTree :=
    .assignment name .plain (.run (parts.flatMap Part.tokens)) .semicolon .nil
  have fits : items.Fits none := by
    refine ⟨notClass, notDeletion, ⟨nonempty, stands, .inr (.inl rfl)⟩, trivial, trivial⟩
  have derived : items.tokens = lexemes.map Lexeme.token := isTokens.symm
  have readAll : readItems lexemes.length false lexemes = .ok (items.body, []) :=
    readItems_complete (Nat.le_refl _) (consumes_end_iff.2 derived) fits rfl
  unfold readText scan
  rw [scanned, scanFrom]
  simp [readBody, readAll, Except.map]
  rfl

/-- A config that assigns an expression to a name, after preprocessing, is read with one
assignment. Its value has a text, which means the same as the expression exactly if all numbers
of the expression are finite and no plus stands right before a number. -/
theorem readConfig_reads_iff {tree : FileTree} {file includeDirectory : Path} {lines : List Text}
    {definitions : Definitions} {name expression : Text} {parts : List Part} {e : Expression}
    (preprocessed : preprocess tree file includeDirectory = .ok (lines, definitions))
    (assigns : AssignsTo (endLines lines) name expression) (isName : IsName name)
    (notClass : name ≠ classKeyword) (notDeletion : name ≠ deleteKeyword)
    (written : Written parts expression) (forms : Forms .sum (parts.flatMap Part.symbols) e) :
    ∃ value text,
      readConfig tree file includeDirectory = .ok
        { file := { path := file, classes := []
                    assignments := [{ name, isArray := false, appends := false, value }] }
          definitions := definitions.recorded } ∧
      value.expressionText? = some text ∧
      (Reads text e ↔
        (∀ number ∈ e.literals, number.isFinite) ∧ ∀ number, .attached .plus number ∉ parts) := by
  refine ⟨runValue (parts.flatMap Part.tokens), runText (parts.flatMap Part.tokens), ?_, ?_,
    reads_runText_iff written forms⟩
  · unfold readConfig
    rw [preprocessed]
    simp only [bind, Except.bind]
    rw [readText_assignment assigns isName notClass notDeletion written forms]
    rfl
  · refine expressionText?_runValue fun text member => ?_
    obtain ⟨part, -, inPart⟩ := List.mem_flatMap.1 member
    rcases tokens_of_part inPart with ⟨name, isToken⟩ | ⟨value, isToken⟩ | ⟨c, isToken⟩ <;>
      cases isToken

/-! ## Two configs -/

/-- The path of the only file in a tree. -/
def aloneFile : Path := ⟨"config.cpp"⟩

/-- A tree with one config in it. -/
def aloneTree (text : Text) : FileTree :=
  { entries := [(["config.cpp".toList], .file text.encode false)] }

theorem readText_alone (text : Text) : (aloneTree text).readText aloneFile = .ok text := by
  have found : (aloneTree text).find aloneFile =
      .ok (["config.cpp".toList], .file text.encode false) := rfl
  exact FileTree.readText_eq_ok_iff.2 ⟨_, _, _, found, Text.decode?_encode text⟩

theorem sourceLines_alone (text : Text) :
    sourceLines (aloneTree text) aloneFile = .ok (logicalLines (stripComments text)) := by
  unfold sourceLines
  rw [readText_alone]

/-- A rate as a macro, and an expression that uses it. -/
def rateConfig : Text := "#define RATE 2\nx = a*RATE-1;\n"

/-- Its last line with the macro expanded. -/
def rateLine : Text := ['x', ' ', '=', ' ', 'a', '*', '2', '-', '1', ';']

/-- The numbers one and two. -/
def one : Binary64 := .ofNat 1

def two : Binary64 := .ofNat 2

theorem isLiteral_one : IsLiteral ['1'] one := ⟨⟨'1', rfl, by decide⟩, by decide +kernel⟩

theorem isLiteral_two : IsLiteral ['2'] two := ⟨⟨'2', rfl, by decide⟩, by decide +kernel⟩

theorem isName_a : IsName ['a'] := ⟨⟨'a', rfl, by decide⟩, List.all_eq_true.1 rfl⟩

/-- An expression with an expanded macro keeps its meaning. -/
theorem readConfig_rateConfig :
    ∃ value text,
      readConfig (aloneTree rateConfig) aloneFile ⟨[]⟩ = .ok
        { file := { path := aloneFile, classes := []
                    assignments := [{ name := ['x'], isArray := false, appends := false, value }] }
          definitions := [("RATE".toList, ['2'])] } ∧
      value.expressionText? = some text ∧
      Reads text (.binary .minus (.binary .times (.name ['a']) (.literal two)) (.literal one)) := by
  have preprocessed : preprocess (aloneTree rateConfig) aloneFile ⟨[]⟩ = .ok
      ([[], rateLine],
        { macros := [("RATE".toList, ⟨none, ['2']⟩)], recorded := [("RATE".toList, ['2'])] }) := by
    unfold preprocess preprocessFile maxInclusionDepth
    simp only
    rw [sourceLines_alone]
    rfl
  have assigns : AssignsTo (endLines [[], rateLine]) ['x'] [' ', 'a', '*', '2', '-', '1'] :=
    ⟨['\n'], [' '], ['\n'], List.all_eq_true.1 rfl, List.all_eq_true.1 rfl, List.all_eq_true.1 rfl, rfl⟩
  have written : Written [.name ['a'], .attached .times two, .attached .minus one]
      [' ', 'a', '*', '2', '-', '1'] :=
    .blank (by decide) <| .name isName_a (by decide) <|
      .attached .times isLiteral_two (by decide) <| .attached .minus isLiteral_one (by decide) .nil
  have forms : Forms .sum
      ([.name ['a'], .attached .times two, .attached .minus one].flatMap Part.symbols)
      (.binary .minus (.binary .times (.name ['a']) (.literal two)) (.literal one)) :=
    @Forms.sum .minus [.name ['a'], .operator .times, .literal two] [.literal one] _ _ rfl
      (.term (@Forms.product .times [.name ['a']] [.literal two] _ _ rfl
        (.operand (.name _)) (.literal _)))
      (.operand (.literal _))
  obtain ⟨value, text, read, printed, meaning⟩ :=
    readConfig_reads_iff preprocessed assigns ⟨⟨'x', rfl, by decide⟩, List.all_eq_true.1 rfl⟩ (by decide)
      (by decide) written forms
  exact ⟨value, text, read, printed, meaning.2 ⟨by decide +kernel, by simp⟩⟩

/-- A sum without blanks, whose plus is right before a number. -/
def sumConfig : Text := "x = a+1;"

/-- The plus of the sum is lost, and what is left means nothing. -/
theorem readConfig_sumConfig :
    Reads [' ', 'a', '+', '1'] (.binary .plus (.name ['a']) (.literal one)) ∧
      ∃ value text,
        readConfig (aloneTree sumConfig) aloneFile ⟨[]⟩ = .ok
          { file :=
              { path := aloneFile, classes := []
                assignments := [{ name := ['x'], isArray := false, appends := false, value }] }
            definitions := [] } ∧
        value.expressionText? = some text ∧ ∀ e, ¬ Reads text e := by
  have written : Written [.name ['a'], .attached .plus one] [' ', 'a', '+', '1'] :=
    .blank (by decide) <| .name isName_a (by decide) <|
      .attached .plus isLiteral_one (by decide) .nil
  have forms : Forms .sum ([.name ['a'], .attached .plus one].flatMap Part.symbols)
      (.binary .plus (.name ['a']) (.literal one)) :=
    @Forms.sum .plus [.name ['a']] [.literal one] _ _ rfl (.term (.operand (.name _)))
      (.operand (.literal _))
  have preprocessed : preprocess (aloneTree sumConfig) aloneFile ⟨[]⟩ = .ok ([sumConfig], {}) := by
    unfold preprocess preprocessFile maxInclusionDepth
    simp only
    rw [sourceLines_alone]
    rfl
  have assigns : AssignsTo (endLines [sumConfig]) ['x'] [' ', 'a', '+', '1'] :=
    ⟨[], [' '], ['\n'], List.all_eq_true.1 rfl, List.all_eq_true.1 rfl, List.all_eq_true.1 rfl, rfl⟩
  have isText : runText [.word ['a'], .number one] = ['a', ' ', '1'] := by decide +kernel
  have isValue : runValue ([.name ['a'], .attached .plus one].flatMap Part.tokens) =
      .raw ['a', ' ', '1'] := congrArg Value.raw isText
  refine ⟨⟨_, written, forms⟩, .raw ['a', ' ', '1'], ['a', ' ', '1'], ?_, rfl, ?_⟩
  · unfold readConfig
    rw [preprocessed]
    simp only [bind, Except.bind]
    rw [readText_assignment assigns ⟨⟨'x', rfl, by decide⟩, List.all_eq_true.1 rfl⟩ (by decide) (by decide)
      written forms, isValue]
    rfl
  · rintro e ⟨parts, falls, means⟩
    have apart : Written [.name ['a'], .literal one] ['a', ' ', '1'] :=
      .name isName_a (by decide) <| .blank (by decide) <| .literal isLiteral_one (by decide) .nil
    obtain rfl := falls.unique apart
    cases means.steps?_eq

end AddonIndex.ClassConfig
