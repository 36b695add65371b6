import AddonIndex.Proofs.ClassConfig.ItemPlace
import AddonIndex.Proofs.ClassConfig.TokenEnd

/-!
# The text of an expression reads back

An expression is kept as the text of its tokens with single blanks between them. Before a blank
each token is read back from the form in which it is written there: a word or a sign stands as it
was scanned, a finite number is the number nearest to its plain form, and a string has its quotes
doubled again. So the text of an expression is a fixed point: assigned to a name, it is the value of
the name, wherever in a config it was read.
-/

namespace AddonIndex.ClassConfig

open Arithmetic

variable {text rest : Text}

/-! ## Tokens -/

/-- Whether a token is read back from its written form where no token goes on. -/
def Token.ReadsBack (token : Token) : Prop :=
  ∀ ⦃rest : Text⦄, StopsToken rest → Scans (token.render ++ rest) [token] rest

/-- Whether a token is no infinite number. -/
def Token.isFinite : Token → Bool
  | number value => value.isFinite
  | _ => true

/-- A word alone is split off whole. -/
theorem splitWord_self {numeric : Bool} {before : Char} {word after : Text}
    (split : splitWord numeric before text = (word, after)) :
    splitWord numeric before word = (word, []) := by
  fun_induction splitWord numeric before text generalizing word after with
  | case1 =>
      cases split
      rfl
  | case2 before c text inWord word after divided ih =>
      obtain ⟨rfl, rfl⟩ := Prod.mk.inj split
      rw [splitWord, if_pos inWord, ih divided]
  | case3 =>
      cases split
      rfl

/-- A word begins in the same way without what follows it. -/
theorem beginsWord_of_splitWord {numeric : Bool} {before c : Char} {word after : Text}
    (begins : beginsWord c text) (split : splitWord numeric before text = (word, after)) :
    beginsWord c word := by
  cases text with
  | nil =>
      cases split
      exact begins
  | cons next text =>
      unfold splitWord at split
      split at split
      · cases split
        exact begins
      · rename_i outside
        cases split
        have noLiteral : ¬ (next.isDigit || next == '.') := fun isLiteral =>
          outside (by simp [isWordChar_of_beginsLiteral isLiteral])
        simpa [beginsWord, noLiteral] using begins

theorem classifyWord_eq_or (word : Text) :
    classifyWord word = .word word ∨ ∃ value, classifyWord word = .number value := by
  unfold classifyWord
  repeat' split
  all_goals simp

/-- The plain form of a finite number is scanned as the number. -/
theorem readsBack_number {value : Binary64} (finite : value.isFinite) :
    (Token.number value).ReadsBack := by
  intro rest stops
  have bound : value.magnitude < Binary64.infinityBits := by simpa [Binary64.isFinite] using finite
  cases sign : value.isNegative with
  | false => exact scans_literal (isLiteral_plain finite sign) stops.isSeparate
  | true =>
      have positive : (Binary64.ofMagnitude false value.magnitude).isFinite := by
        simp [isFinite_ofMagnitude bound.le, bound]
      have isLiteral := isLiteral_plain positive
        (Binary64.isNegative_ofMagnitude (bound.trans (by decide)))
      have isNegative : Binary64.ofMagnitude true value.magnitude = value :=
        sign ▸ value.ofMagnitude_magnitude
      have classified := (classifyWord_of_isLiteral isLiteral).2.2
      rw [Binary64.negate_ofMagnitude_false bound.le, isNegative] at classified
      have printed := Binary64.plain_ofMagnitude_true bound.le
      rw [isNegative] at printed
      rw [Token.render, printed]
      exact scans_sign (.inr rfl) isLiteral stops.isSeparate classified

/-- A token that was scanned is read back, if it is no infinite number. -/
theorem readsBack_of_readToken? {c : Char} {after : Text} {token : Token}
    (visible : isBlank c = false) (reads : readToken? c text = some (token, after))
    (finite : token.isFinite) : token.ReadsBack := by
  intro rest stops
  unfold readToken? at reads
  split at reads
  case h_9 =>
    obtain ⟨⟨content, tail⟩, -, same⟩ := Option.map_eq_some_iff.1 reads
    cases same
    exact scans_literal_string content (stops.head?_ne (by decide))
  case h_10 =>
    split at reads
    case isTrue sum =>
      cases reads
      exact scans_token (by decide) (by simp [readToken?])
    case isFalse noSum =>
      split at reads
      case isTrue begins =>
        generalize divided : splitWord (beginsNumber c) c text = parts at reads
        obtain ⟨word, left⟩ := parts
        cases reads
        rcases classifyWord_eq_or (c :: word) with isWord | ⟨value, isNumber⟩
        · have notSum : c = '+' → word.head? ≠ some '=' := by
            intro isPlus first
            obtain ⟨tail, rfl⟩ := List.head?_eq_some_iff.1 first
            have parts := splitWord_append (beginsNumber c) c text
            rw [divided] at parts
            exact noSum ⟨isPlus, by rw [← parts]; rfl⟩
          have alone := readToken?_of_beginsWord (beginsWord_of_splitWord begins divided) notSum
            (splitWord_self divided)
          rw [isWord] at alone ⊢
          exact scans_token visible (readToken?_append_of_stopsToken alone stops)
        · rw [isNumber] at finite ⊢
          exact readsBack_number finite stops
      case isFalse noBegin =>
        cases reads
        have noWord : beginsWord c [] = false := by
          cases isWord : isWordChar c with
          | true => exact absurd (by simp [beginsWord, isWord]) noBegin
          | false => simp [beginsWord, isWord]
        have alone : readToken? c [] = some (.other c, []) := by
          rw [readToken?] <;> try assumption
          simp [noWord]
        exact scans_token visible (readToken?_append_of_stopsToken alone stops)
  all_goals
    cases reads
    exact scans_token visible rfl

theorem Passes.forall_readsBack {line next : Nat} {lexemes : List Lexeme}
    (passes : Passes line text lexemes next rest)
    (finite : ∀ lexeme ∈ lexemes, lexeme.token.isFinite) :
    ∀ lexeme ∈ lexemes, lexeme.token.ReadsBack := by
  induction passes with
  | refl => simp
  | lineFeed _ ih => exact ih finite
  | blank _ _ _ ih => exact ih finite
  | token visible reads _ ih =>
      rcases List.forall_mem_cons.1 finite with ⟨first, others⟩
      exact List.forall_mem_cons.2 ⟨readsBack_of_readToken? visible reads first, ih others⟩

/-- Tokens that are read back one by one are read back from their text. -/
theorem scans_runText {run : List Token} (each : ∀ token ∈ run, token.ReadsBack)
    (stops : StopsToken rest) : Scans (runText run ++ rest) run rest := by
  induction run with
  | nil => exact scans_refl rest
  | cons token run ih =>
      rcases List.forall_mem_cons.1 each with ⟨first, others⟩
      cases run with
      | nil => simpa [runText, Text.joinWith] using first stops
      | cons next run =>
          have spaced : StopsToken (' ' :: (runText (next :: run) ++ rest)) :=
            stopsToken_cons_iff.2 (by decide)
          have whole := (first spaced).trans ((scans_blank (by decide) _).trans (ih others))
          simpa [runText, Text.joinWith, List.intercalate_cons_cons] using whole

/-- The tokens of a text are read back, unless one is an infinite number. -/
theorem readsBack_of_scan {lexemes : List Lexeme} (scanned : scan text = .ok lexemes)
    (finite : ∀ lexeme ∈ lexemes, lexeme.token.isFinite) :
    ∀ token ∈ lexemes.map Lexeme.token, token.ReadsBack := by
  obtain ⟨next, passes⟩ := passes_of_scanFrom_eq_ok scanned
  intro token member
  obtain ⟨lexeme, inText, rfl⟩ := List.mem_map.1 member
  exact passes.forall_readsBack finite lexeme inText

theorem exists_scan_runText {tokens run : List Token} (each : ∀ token ∈ tokens, token.ReadsBack)
    (among : run ⊆ tokens) :
    ∃ again, scan (runText run) = .ok again ∧ again.map Lexeme.token = run := by
  obtain ⟨again, last, isRun, scans⟩ :=
    scans_runText (fun token member => each token (among member)) stopsToken_nil 1
  refine ⟨again, ?_, isRun⟩
  rw [List.append_nil] at scans
  simp [scan, scans, scanFrom, Except.map]

/-! ## The values in a body -/

/-- Whether a value is assigned to a name in a body, at its top level or in a class at any depth. -/
inductive Body.Assigns (value : Value) : Body → Prop
  | here {body : Body} {assignment : Assignment} (member : assignment ∈ body.assignments)
      (isValue : assignment.value = value) : Assigns value body
  | inClass {body : Body} {inner : ConfigClass} (member : inner ∈ body.classes)
      (assigns : Assigns value { classes := inner.classes, assignments := inner.assignments }) :
      Assigns value body

/-- Whether a value is an element of an array, at any depth. -/
inductive Value.IsElementOf (element : Value) : Value → Prop
  | item {items : List Value} (member : element ∈ items) : IsElementOf element (.array items)
  | nested {items : List Value} {inner : Value} (member : inner ∈ items)
      (isInside : IsElementOf element inner) : IsElementOf element (.array items)

theorem Body.assigns_addAssignment_iff {value : Value} {assignment : Assignment} {body : Body} :
    (body.addAssignment assignment).Assigns value ↔
      assignment.value = value ∨ body.Assigns value := by
  constructor
  · rintro (⟨member, isValue⟩ | ⟨member, assigns⟩)
    · rcases List.mem_cons.1 member with rfl | member
      · exact .inl isValue
      · exact .inr (.here member isValue)
    · exact .inr (.inClass member assigns)
  · rintro (isValue | ⟨member, isValue⟩ | ⟨member, assigns⟩)
    · exact .here List.mem_cons_self isValue
    · exact .here (List.mem_cons_of_mem _ member) isValue
    · exact .inClass member assigns

theorem Body.assigns_addClass_iff {value : Value} {inner : ConfigClass} {body : Body} :
    (body.addClass inner).Assigns value ↔
      Assigns value { classes := inner.classes, assignments := inner.assignments } ∨
        body.Assigns value := by
  constructor
  · rintro (⟨member, isValue⟩ | ⟨member, assigns⟩)
    · exact .inr (.here member isValue)
    · rcases List.mem_cons.1 member with rfl | member
      · exact .inl assigns
      · exact .inr (.inClass member assigns)
  · rintro (assigns | ⟨member, isValue⟩ | ⟨member, assigns⟩)
    · exact .inClass List.mem_cons_self assigns
    · exact .here member isValue
    · exact .inClass (List.mem_cons_of_mem _ member) assigns

theorem Body.not_assigns_empty {value : Value} : ¬ Assigns value {} := by
  rintro (⟨member, -⟩ | ⟨member, -⟩) <;> cases member

/-- Whether some of the tokens derive a value. -/
def HasPart (inArray : Bool) (value : Value) (tokens : List Token) : Prop :=
  ∃ (part : ValueTree) (next : Option Token),
    part.Fits inArray next ∧ part.value = value ∧ part.tokens ⊆ tokens

theorem HasPart.mono {inArray : Bool} {value : Value} {tokens others : List Token}
    (has : HasPart inArray value tokens) (among : tokens ⊆ others) :
    HasPart inArray value others := by
  obtain ⟨part, next, fits, isValue, inTokens⟩ := has
  exact ⟨part, next, fits, isValue, List.Subset.trans inTokens among⟩

theorem ValueTree.Fits.hasPart {inArray : Bool} {next : Option Token} {part : ValueTree}
    (fits : part.Fits inArray next) : HasPart inArray part.value part.tokens :=
  ⟨part, next, fits, rfl, List.Subset.refl _⟩

/-- A value in the body of a derivation is derived from some of the tokens. -/
theorem ItemsTree.hasPart_of_assigns {items : ItemsTree} {next : Option Token} {value : Value}
    (fits : items.Fits next) (assigns : items.body.Assigns value) :
    HasPart false value items.tokens := by
  induction items generalizing next with
  | nil => exact absurd assigns Body.not_assigns_empty
  | stray rest ih => exact (ih fits assigns).mono fun token member => by simp [tokens, member]
  | declaration name base ending rest ih =>
      rcases Body.assigns_addClass_iff.1 assigns with inner | outer
      · exact absurd inner Body.not_assigns_empty
      · exact (ih fits.2 outer).mono fun token member => by simp [tokens, member]
  | definition name base contents ending rest contentsIh ih =>
      rcases Body.assigns_addClass_iff.1 assigns with inner | outer
      · exact (contentsIh fits.1 inner).mono fun token member => by simp [tokens, member]
      · exact (ih fits.2.2 outer).mono fun token member => by simp [tokens, member]
  | deletion name ending rest ih =>
      exact (ih fits.2 assigns).mono fun token member => by simp [tokens, member]
  | assignment name mark part ending rest ih =>
      obtain ⟨-, -, partFits, -, restFits⟩ := fits
      rcases Body.assigns_addAssignment_iff.1 assigns with rfl | outer
      · exact partFits.hasPart.mono fun token member => by simp [tokens, member]
      · exact (ih restFits outer).mono fun token member => by simp [tokens, member]

theorem Value.isElementOf_cons_iff {element value : Value} {values : List Value} :
    element.IsElementOf (.array (value :: values)) ↔
      value = element ∨ element.IsElementOf value ∨ element.IsElementOf (.array values) := by
  constructor
  · rintro (⟨member⟩ | ⟨member, isInside⟩)
    · rcases List.mem_cons.1 member with rfl | member
      · exact .inl rfl
      · exact .inr (.inr (.item member))
    · rcases List.mem_cons.1 member with rfl | member
      · exact .inr (.inl isInside)
      · exact .inr (.inr (.nested member isInside))
  · rintro (rfl | isInside | ⟨member⟩ | ⟨member, isInside⟩)
    · exact .item List.mem_cons_self
    · exact .nested List.mem_cons_self isInside
    · exact .item (List.mem_cons_of_mem _ member)
    · exact .nested (List.mem_cons_of_mem _ member) isInside

theorem Value.not_isElementOf_empty {element : Value} : ¬ element.IsElementOf (.array []) := by
  rintro (⟨member⟩ | ⟨member, -⟩) <;> cases member

/-- The value of a run is its text, unless the run is a single literal. -/
theorem runValue_eq_or (run : List Token) :
    runValue run = .raw (runText run) ∨
      (∃ text, runValue run = .string text) ∨ ∃ value, runValue run = .number value := by
  match run with
  | [] => exact .inl rfl
  | [token] =>
      cases token with
      | string text => exact .inr (.inl ⟨text, rfl⟩)
      | number value => exact .inr (.inr ⟨value, rfl⟩)
      | _ => exact .inl rfl
  | _ :: _ :: _ => exact .inl rfl

theorem not_isElementOf_runValue {run : List Token} {element : Value} :
    ¬ element.IsElementOf (runValue run) := by
  rcases runValue_eq_or run with isRaw | ⟨text, isString⟩ | ⟨value, isNumber⟩
  · rw [isRaw]
    rintro ⟨⟩
  · rw [isString]
    rintro ⟨⟩
  · rw [isNumber]
    rintro ⟨⟩

mutual

/-- An element of the array of a derivation is derived from some of the tokens. -/
theorem ValueTree.hasPart_of_isElementOf (whole : ValueTree) {inArray : Bool} {next : Option Token}
    {element : Value} (fits : whole.Fits inArray next) (isInside : element.IsElementOf whole.value) :
    HasPart true element whole.tokens := by
  cases whole with
  | run tokens => exact absurd isInside not_isElementOf_runValue
  | array elements =>
      exact (elements.hasPart_of_isElementOf fits isInside).mono (List.subset_cons_self _ _)

theorem ElementsTree.hasPart_of_isElementOf (elements : ElementsTree) {element : Value}
    (fits : elements.Fits) (isInside : element.IsElementOf (.array elements.values)) :
    HasPart true element elements.tokens := by
  cases elements with
  | close => exact absurd isInside Value.not_isElementOf_empty
  | last value =>
      refine HasPart.mono ?_ (List.subset_append_left value.tokens _)
      rcases Value.isElementOf_cons_iff.1 isInside with rfl | inFirst | inOthers
      · exact ValueTree.Fits.hasPart fits
      · exact value.hasPart_of_isElementOf fits inFirst
      · exact absurd inOthers Value.not_isElementOf_empty
  | more value rest =>
      rcases Value.isElementOf_cons_iff.1 isInside with rfl | inFirst | inOthers
      · exact fits.1.hasPart.mono (List.subset_append_left _ _)
      · exact (value.hasPart_of_isElementOf fits.1 inFirst).mono (List.subset_append_left _ _)
      · exact (rest.hasPart_of_isElementOf fits.2 inOthers).mono fun token member => by
          simp [ElementsTree.tokens, member]

end

/-- A text that is derived from tokens is derived from a run, of which it is the text. -/
theorem HasPart.exists_run {inArray : Bool} {r : Text} {tokens : List Token}
    (has : HasPart inArray (.raw r) tokens) :
    ∃ run, run ≠ [] ∧ (∀ token ∈ run, token.StandsInRun inArray) ∧ runValue run = .raw r ∧
      runText run = r ∧ run ⊆ tokens := by
  obtain ⟨part, next, fits, isValue, among⟩ := has
  cases part with
  | array elements => cases isValue
  | run run =>
      have isRaw : runValue run = .raw r := isValue
      refine ⟨run, fits.1, fits.2.1, isRaw, ?_, among⟩
      rcases runValue_eq_or run with isText | ⟨text, isString⟩ | ⟨value, isNumber⟩
      · rw [isText] at isRaw
        exact Value.raw.inj isRaw
      · rw [isString] at isRaw
        cases isRaw
      · rw [isNumber] at isRaw
        cases isRaw

/-! ## Reading the text again -/

/-- A text whose tokens are derived is read as what the derivation stands for. -/
theorem readText_of_scans {path : Path} {items : ItemsTree} (scans : Scans text items.tokens [])
    (fits : items.Fits none) : readText path text = .ok items.body := by
  obtain ⟨lexemes, next, isTokens, scanned⟩ := scans 1
  have readAll : readItems lexemes.length false lexemes = .ok (items.body, []) :=
    readItems_complete (Nat.le_refl _) (consumes_end_iff.2 isTokens.symm) fits rfl
  simp [readText, scan, scanned, scanFrom, readBody, readAll, Except.map]

theorem isName_x : IsName ['x'] := ⟨⟨'x', rfl, by decide⟩, List.all_eq_true.1 rfl⟩

/-- The text that assigns a value, given by its text, to a name. -/
def assigned (value : Text) : Text := ['x', ' ', '=', ' '] ++ (value ++ [';'])

/-- The text that assigns an array of one value, given by its text, to a name. -/
def assignedInArray (value : Text) : Text :=
  ['x', '[', ']', ' ', '=', ' ', '\x7b'] ++ (value ++ ['\x7d', ';'])

/-- A run whose tokens are read back is the value of a name to which its text is assigned. -/
theorem readText_assigned {path : Path} {run : List Token} (each : ∀ token ∈ run, token.ReadsBack)
    (nonempty : run ≠ []) (stands : ∀ token ∈ run, token.StandsInRun false) :
    readText path (assigned (runText run)) = .ok
      { assignments :=
          [{ name := ['x'], isArray := false, appends := false, value := runValue run }] } := by
  let items : ItemsTree := .assignment ['x'] .plain (.run run) .semicolon .nil
  have fits : items.Fits none :=
    ⟨by decide, by decide, ⟨nonempty, stands, .inr (.inl rfl)⟩, trivial, trivial⟩
  have ending : Scans [';'] [.semicolon] [] := scans_token (by decide) rfl
  have value := (scans_runText each (show StopsToken [';'] from stopsToken_cons_iff.2 (by decide))).trans ending
  have fromEquals : Scans ('=' :: ' ' :: (runText run ++ [';']))
      (.equals :: (run ++ [.semicolon])) [] :=
    (scans_token (by decide) rfl).trans ((scans_blank (by decide) _).trans value)
  have whole : Scans (assigned (runText run)) items.tokens [] :=
    (scans_name isName_x (by simp [IsSeparate]; decide)).trans ((scans_blank (by decide) _).trans fromEquals)
  exact readText_of_scans whole fits

/-- The same for the only element of an array. -/
theorem readText_element {path : Path} {run : List Token} (each : ∀ token ∈ run, token.ReadsBack)
    (nonempty : run ≠ []) (stands : ∀ token ∈ run, token.StandsInRun true) :
    readText path (assignedInArray (runText run)) = .ok
      { assignments :=
          [{ name := ['x'], isArray := true, appends := false
             value := .array [runValue run] }] } := by
  let items : ItemsTree :=
    .assignment ['x'] .array (.array (.last (.run run))) .semicolon .nil
  have fits : items.Fits none :=
    ⟨by decide, by decide, ⟨nonempty, stands, .inr (.inr (.inl rfl))⟩, trivial, trivial⟩
  have ending : Scans ['\x7d', ';'] [.closeBrace, .semicolon] [] :=
    (scans_token (by decide) rfl).trans (scans_token (by decide) rfl)
  have value := (scans_runText each (show StopsToken ['\x7d', ';'] from stopsToken_cons_iff.2 (by decide))).trans ending
  have fromEquals : Scans ('=' :: ' ' :: '\x7b' :: (runText run ++ ['\x7d', ';']))
      (.equals :: .openBrace :: (run ++ [.closeBrace, .semicolon])) [] :=
    (scans_token (by decide) rfl).trans <| (scans_blank (by decide) _).trans <|
      (scans_token (by decide) rfl).trans value
  have whole : Scans (assignedInArray (runText run)) items.tokens [] := by
    have tokensEq : items.tokens = .word ['x'] :: .openBracket :: .closeBracket ::
        (.equals :: .openBrace :: (run ++ [.closeBrace, .semicolon])) := by
      simp [items, ItemsTree.tokens, Mark.tokens, ValueTree.tokens, ElementsTree.tokens,
        Ending.tokens]
    rw [tokensEq]
    exact (scans_name isName_x (by simp [IsSeparate]; decide)).trans <| (scans_token (by decide) rfl).trans <|
      (scans_token (by decide) rfl).trans <| (scans_blank (by decide) _).trans fromEquals
  exact readText_of_scans whole fits

/-- Text that is the value of a name, or an element of an array, is the same value again where it
is assigned to a name or stands alone in an array. The tokens of which it is the text are scanned
from it again. -/
theorem raw_reads_back {path : Path} {lexemes : List Lexeme} {body : Body}
    (scanned : scan text = .ok lexemes)
    (finite : ∀ lexeme ∈ lexemes, lexeme.token.isFinite)
    (read : readText path text = .ok body) :
    (∀ r, body.Assigns (.raw r) →
      readText path (assigned r) = .ok
        { assignments := [{ name := ['x'], isArray := false, appends := false, value := .raw r }] }) ∧
    (∀ r whole, body.Assigns whole → (Value.raw r).IsElementOf whole →
      readText path (assignedInArray r) = .ok
        { assignments :=
            [{ name := ['x'], isArray := true, appends := false, value := .array [.raw r] }] }) ∧
    ∀ run ⊆ lexemes.map Lexeme.token,
      ∃ again, scan (runText run) = .ok again ∧ again.map Lexeme.token = run := by
  obtain ⟨found, scannedIt, readAll⟩ := scan_of_readText read
  obtain rfl : lexemes = found := Except.ok.inj (scanned.symm.trans scannedIt)
  obtain ⟨items, ⟨isTokens, fits⟩, rfl⟩ := exists_derives_of_readBody readAll
  have each : ∀ {run : List Token}, run ⊆ items.tokens → ∀ token ∈ run, token.ReadsBack := by
    intro run among token member
    have inText := among member
    rw [isTokens] at inText
    exact readsBack_of_scan scanned finite token inText
  refine ⟨?_, ?_, fun run among => exists_scan_runText (readsBack_of_scan scanned finite) among⟩
  · intro r assigns
    obtain ⟨run, nonempty, stands, isRaw, rfl, among⟩ :=
      (ItemsTree.hasPart_of_assigns fits assigns).exists_run
    rw [← isRaw]
    exact readText_assigned (each among) nonempty stands
  · intro r whole assigns isInside
    obtain ⟨part, next, partFits, rfl, inItems⟩ := ItemsTree.hasPart_of_assigns fits assigns
    obtain ⟨run, nonempty, stands, isRaw, rfl, among⟩ :=
      (part.hasPart_of_isElementOf partFits isInside).exists_run
    rw [← isRaw]
    exact readText_element (each (List.Subset.trans among inItems)) nonempty stands

/-- A string with a quote in it, a word that looks like a number, and numbers with signs. -/
def mixedText : Text := "y = \"a\"\"b\" 1e+ -0x1F;\nz[] = \x7b c +.5 \x7d;"

/-- The texts of both values are read as the same values again. -/
theorem mixedText_reads_back :
    (∃ body, readText aloneFile mixedText = .ok body) ∧
      readText aloneFile (assigned "\"a\"\"b\" 1e+ -31".toList) = .ok
        { assignments := [{ name := ['x'], isArray := false, appends := false
                            value := .raw "\"a\"\"b\" 1e+ -31".toList }] } ∧
      readText aloneFile (assignedInArray "c 0.5".toList) = .ok
        { assignments := [{ name := ['x'], isArray := true, appends := false
                            value := .array [.raw "c 0.5".toList] }] } := by
  have scanned : scan mixedText = .ok
      [⟨.word ['y'], 1⟩, ⟨.equals, 1⟩, ⟨.string "a\"b".toList, 1⟩, ⟨.word "1e+".toList, 1⟩,
        ⟨.number (.ofDecimal true 31 0), 1⟩, ⟨.semicolon, 1⟩, ⟨.word ['z'], 2⟩, ⟨.openBracket, 2⟩,
        ⟨.closeBracket, 2⟩, ⟨.equals, 2⟩, ⟨.openBrace, 2⟩, ⟨.word ['c'], 2⟩,
        ⟨.number (.ofDecimal false 5 (-1)), 2⟩, ⟨.closeBrace, 2⟩, ⟨.semicolon, 2⟩] := by
    decide +kernel
  have first : runText [.string "a\"b".toList, .word "1e+".toList, .number (.ofDecimal true 31 0)] =
      "\"a\"\"b\" 1e+ -31".toList := by
    decide +kernel
  have second : runText [.word ['c'], .number (.ofDecimal false 5 (-1))] = "c 0.5".toList := by
    decide +kernel
  have read : readText aloneFile mixedText = .ok
      { assignments :=
          [{ name := ['y'], isArray := false, appends := false
             value := .raw "\"a\"\"b\" 1e+ -31".toList },
            { name := ['z'], isArray := true, appends := false
              value := .array [.raw "c 0.5".toList] }] } := by
    rw [← first, ← second, readText, scanned]
    rfl
  obtain ⟨values, elements, -⟩ := raw_reads_back scanned (by decide +kernel) read
  exact ⟨⟨_, read⟩, values _ (.here List.mem_cons_self rfl),
    elements _ _ (.here (List.mem_cons_of_mem _ List.mem_cons_self) rfl) (.item List.mem_cons_self)⟩

end AddonIndex.ClassConfig
