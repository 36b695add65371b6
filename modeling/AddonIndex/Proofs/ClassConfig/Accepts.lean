import AddonIndex.Proofs.ClassConfig.Grammar
import AddonIndex.Proofs.Except

/-!
# The reader accepts exactly the grammar

Each reading function succeeds exactly where a part of a derivation begins, and
then it returns what that part stands for and leaves what follows it. The bound
that carries the recursion is never reached, since it is at least the number of
tokens.
-/

namespace AddonIndex.ClassConfig

/-! ## What is read and what is left -/

/-- Whether `rest` is what is left of `lexemes` after the given tokens. -/
def Consumes (lexemes : List Lexeme) (tokens : List Token) (rest : List Lexeme) : Prop :=
  ∃ consumed, lexemes = consumed ++ rest ∧ consumed.map Lexeme.token = tokens

/-- The next token, if there is one. -/
def nextToken (lexemes : List Lexeme) : Option Token := lexemes.head?.map Lexeme.token

@[simp]
theorem nextToken_nil : nextToken [] = none :=
  rfl

@[simp]
theorem nextToken_cons (first : Lexeme) (rest : List Lexeme) :
    nextToken (first :: rest) = some first.token :=
  rfl

@[simp]
theorem consumes_nil_iff {lexemes rest : List Lexeme} :
    Consumes lexemes [] rest ↔ lexemes = rest := by
  simp [Consumes]

@[simp]
theorem not_nil_consumes_cons {token : Token} {tokens : List Token} {rest : List Lexeme} :
    ¬ Consumes [] (token :: tokens) rest := by
  rintro ⟨consumed, split, mapped⟩
  obtain ⟨rfl, -⟩ := List.append_eq_nil_iff.1 split.symm
  simp at mapped

@[simp]
theorem cons_consumes_cons_iff {first : Lexeme} {lexemes rest : List Lexeme} {token : Token}
    {tokens : List Token} :
    Consumes (first :: lexemes) (token :: tokens) rest ↔
      first.token = token ∧ Consumes lexemes tokens rest := by
  constructor
  · rintro ⟨consumed, split, mapped⟩
    cases consumed with
    | nil => simp at mapped
    | cons head consumed =>
        rw [List.cons_append, List.cons.injEq] at split
        rw [List.map_cons, List.cons.injEq] at mapped
        obtain ⟨rfl, split⟩ := split
        exact ⟨mapped.1, consumed, split, mapped.2⟩
  · rintro ⟨tokenEq, consumed, rfl, rfl⟩
    exact ⟨first :: consumed, rfl, by rw [List.map_cons, tokenEq]⟩

theorem consumes_append_iff {lexemes rest : List Lexeme} {first second : List Token} :
    Consumes lexemes (first ++ second) rest ↔
      ∃ middle, Consumes lexemes first middle ∧ Consumes middle second rest := by
  constructor
  · rintro ⟨consumed, rfl, mapped⟩
    obtain ⟨left, right, rfl, rfl, rfl⟩ := List.map_eq_append_iff.1 mapped
    exact ⟨right ++ rest, ⟨left, List.append_assoc _ _ _, rfl⟩, right, rfl, rfl⟩
  · rintro ⟨_, ⟨left, rfl, rfl⟩, right, rfl, rfl⟩
    exact ⟨left ++ right, (List.append_assoc _ _ _).symm, List.map_append⟩

theorem Consumes.append {lexemes middle rest : List Lexeme} {first second : List Token}
    (before : Consumes lexemes first middle) (after : Consumes middle second rest) :
    Consumes lexemes (first ++ second) rest :=
  consumes_append_iff.2 ⟨middle, before, after⟩

/-- The next token is the first one of what is consumed, or what follows it. -/
theorem Consumes.nextToken_eq {lexemes rest : List Lexeme} {tokens : List Token}
    (consumes : Consumes lexemes tokens rest) :
    nextToken lexemes = tokens.head?.or (nextToken rest) := by
  obtain ⟨consumed, rfl, rfl⟩ := consumes
  cases consumed <;> simp [nextToken]

theorem Consumes.length_eq {lexemes rest : List Lexeme} {tokens : List Token}
    (consumes : Consumes lexemes tokens rest) :
    lexemes.length = tokens.length + rest.length := by
  obtain ⟨consumed, rfl, rfl⟩ := consumes
  simp

/-- What begins with a token has a first lexeme. -/
theorem Consumes.exists_cons {lexemes rest : List Lexeme} {token : Token} {tokens : List Token}
    (consumes : Consumes lexemes (token :: tokens) rest) :
    ∃ first tail, lexemes = first :: tail ∧ first.token = token ∧ Consumes tail tokens rest := by
  cases lexemes with
  | nil => exact absurd consumes not_nil_consumes_cons
  | cons first tail => exact ⟨first, tail, rfl, cons_consumes_cons_iff.1 consumes⟩

@[simp]
theorem nextToken_eq_none_iff {lexemes : List Lexeme} : nextToken lexemes = none ↔ lexemes = [] := by
  simp [nextToken]

/-- All of a list is consumed exactly if its tokens are the given ones. -/
theorem consumes_end_iff {lexemes : List Lexeme} {tokens : List Token} :
    Consumes lexemes tokens [] ↔ tokens = lexemes.map Lexeme.token := by
  simp [Consumes, eq_comm]

/-! ## Words, ends and marks -/

theorem readWord_eq_ok_iff {what name : Text} {lexemes rest : List Lexeme} :
    readWord what lexemes = .ok (name, rest) ↔ Consumes lexemes [.word name] rest := by
  cases lexemes with
  | nil => simp [readWord]
  | cons first lexemes =>
      obtain ⟨token, line⟩ := first
      cases token <;> simp [readWord]

theorem readEnd_eq_ok_iff {lexemes rest : List Lexeme} :
    readEnd lexemes = .ok ((), rest) ↔
      ∃ ending : Ending, Consumes lexemes ending.tokens rest ∧ ending.Fits (nextToken rest) := by
  cases lexemes with
  | nil =>
      simp only [readEnd]
      constructor
      · rintro ⟨⟩
        exact ⟨.omitted, consumes_nil_iff.2 rfl, .inl rfl⟩
      · rintro ⟨ending | ending, consumes, -⟩
        · exact absurd consumes not_nil_consumes_cons
        · rw [consumes_nil_iff.1 consumes]
  | cons first lexemes =>
      simp only [readEnd]
      split
      · rename_i semicolon
        constructor
        · rintro ⟨⟩
          exact ⟨.semicolon, cons_consumes_cons_iff.2 ⟨semicolon, consumes_nil_iff.2 rfl⟩, trivial⟩
        · rintro ⟨ending | ending, consumes, fits⟩
          · rw [consumes_nil_iff.1 (cons_consumes_cons_iff.1 consumes).2]
          · rw [← consumes_nil_iff.1 consumes] at fits
            simp [Ending.Fits, EndsItem, semicolon] at fits
      · rename_i notSemicolon
        split
        · rename_i brace
          constructor
          · rintro ⟨⟩
            exact ⟨.omitted, consumes_nil_iff.2 rfl, .inr (congrArg some brace)⟩
          · rintro ⟨ending | ending, consumes, fits⟩
            · exact absurd (cons_consumes_cons_iff.1 consumes).1 notSemicolon
            · rw [consumes_nil_iff.1 consumes]
        · rename_i notBrace
          simp only [reduceCtorEq, false_iff]
          rintro ⟨ending | ending, consumes, fits⟩
          · exact notSemicolon (cons_consumes_cons_iff.1 consumes).1
          · rw [← consumes_nil_iff.1 consumes] at fits
            simp [Ending.Fits, EndsItem, notBrace] at fits

theorem readBase_eq_ok_iff {base : Option Text} {lexemes rest : List Lexeme} :
    readBase lexemes = .ok (base, rest) ↔
      Consumes lexemes (baseTokens base) rest ∧
        (base = none → nextToken lexemes ≠ some .colon) := by
  unfold readBase
  split
  · rename_i line after
    rw [bind_eq_ok_iff]
    constructor
    · rintro ⟨⟨name, left⟩, word, result⟩
      cases result
      exact ⟨cons_consumes_cons_iff.2 ⟨rfl, readWord_eq_ok_iff.1 word⟩, nofun⟩
    · rintro ⟨consumes, noColon⟩
      cases base with
      | none => exact absurd rfl (noColon rfl)
      | some name =>
          exact ⟨(name, rest), readWord_eq_ok_iff.2 (cons_consumes_cons_iff.1 consumes).2, rfl⟩
  · rename_i noColon
    constructor
    · rintro ⟨⟩
      refine ⟨consumes_nil_iff.2 rfl, fun _ colon => ?_⟩
      cases lexemes with
      | nil => simp at colon
      | cons first after => exact noColon first.line after (by
          obtain ⟨token, line⟩ := first
          exact congrArg (fun token => ⟨token, line⟩ :: after) (Option.some.inj colon))
    · rintro ⟨consumes, -⟩
      cases base with
      | none => rw [consumes_nil_iff.1 consumes]; rfl
      | some name =>
          cases lexemes with
          | nil => exact absurd consumes not_nil_consumes_cons
          | cons first after =>
              obtain ⟨token, line⟩ := first
              obtain ⟨rfl, -⟩ := cons_consumes_cons_iff.1 consumes
              exact absurd rfl (noColon line after)

theorem readBrackets_eq_ok_iff {isArray : Bool} {lexemes rest : List Lexeme} :
    readBrackets lexemes = .ok (isArray, rest) ↔
      (isArray = true ∧ Consumes lexemes [.openBracket, .closeBracket] rest) ∨
        (isArray = false ∧ lexemes = rest ∧ nextToken lexemes ≠ some .openBracket) := by
  unfold readBrackets
  split
  · simp [Prod.ext_iff, eq_comm]
  · rename_i line after noBracket
    simp only [reduceCtorEq, nextToken_cons, ne_eq, not_true_eq_false, and_false, or_false,
      false_iff, cons_consumes_cons_iff, true_and, not_and]
    rintro - consumes
    cases after with
    | nil => exact not_nil_consumes_cons consumes
    | cons first after =>
        obtain ⟨token, line⟩ := first
        obtain ⟨rfl, -⟩ := cons_consumes_cons_iff.1 consumes
        exact noBracket line after rfl
  · rename_i noBrackets noBracket
    cases lexemes with
    | nil => simp [eq_comm]
    | cons first after =>
        obtain ⟨token, line⟩ := first
        have notOpen : token ≠ .openBracket := by
          rintro rfl
          exact noBracket line after rfl
        simp [notOpen, eq_comm]

theorem readEquals_eq_ok_iff {name : Text} {isArray appends : Bool} {lexemes rest : List Lexeme} :
    readEquals name isArray lexemes = .ok (appends, rest) ↔
      (appends = false ∧ Consumes lexemes [.equals] rest) ∨
        (appends = true ∧ isArray = true ∧ Consumes lexemes [.plusEquals] rest) := by
  cases lexemes with
  | nil => simp [readEquals]
  | cons first lexemes =>
      obtain ⟨token, line⟩ := first
      simp only [readEquals, cons_consumes_cons_iff, consumes_nil_iff]
      split
      · rename_i equals
        simp [equals, eq_comm]
      · rename_i notEquals
        split
        · rename_i plusEquals
          simp [plusEquals, eq_comm]
        · rename_i notAppended
          simp only [reduceCtorEq, notEquals, false_and, and_false, false_or, false_iff]
          rintro ⟨-, array, plusEquals, -⟩
          exact notAppended ⟨plusEquals, array⟩

/-- The brackets and the sign of an assignment together are its mark. -/
theorem readMark_iff {name : Text} {isArray appends : Bool} {lexemes rest : List Lexeme} :
    (∃ middle, readBrackets lexemes = .ok (isArray, middle) ∧
        readEquals name isArray middle = .ok (appends, rest)) ↔
      ∃ mark : Mark, mark.isArray = isArray ∧ mark.appends = appends ∧
        Consumes lexemes mark.tokens rest := by
  constructor
  · rintro ⟨middle, brackets, equals⟩
    rcases readBrackets_eq_ok_iff.1 brackets with ⟨rfl, marked⟩ | ⟨rfl, rfl, -⟩
    · rcases readEquals_eq_ok_iff.1 equals with ⟨rfl, sign⟩ | ⟨rfl, -, sign⟩
      · exact ⟨.array, rfl, rfl, marked.append sign⟩
      · exact ⟨.append, rfl, rfl, marked.append sign⟩
    · rcases readEquals_eq_ok_iff.1 equals with ⟨rfl, sign⟩ | ⟨-, array, -⟩
      · exact ⟨.plain, rfl, rfl, sign⟩
      · cases array
  · rintro ⟨mark, rfl, rfl, consumes⟩
    cases mark with
    | plain =>
        have next : nextToken lexemes = some .equals := consumes.nextToken_eq
        exact ⟨lexemes, readBrackets_eq_ok_iff.2 (.inr ⟨rfl, rfl, by simp [next]⟩),
          readEquals_eq_ok_iff.2 (.inl ⟨rfl, consumes⟩)⟩
    | array =>
        obtain ⟨middle, brackets, equals⟩ :=
          consumes_append_iff.1 (show Consumes _ ([_, _] ++ [_]) _ from consumes)
        exact ⟨middle, readBrackets_eq_ok_iff.2 (.inl ⟨rfl, brackets⟩),
          readEquals_eq_ok_iff.2 (.inl ⟨rfl, equals⟩)⟩
    | append =>
        obtain ⟨middle, brackets, equals⟩ :=
          consumes_append_iff.1 (show Consumes _ ([_, _] ++ [_]) _ from consumes)
        exact ⟨middle, readBrackets_eq_ok_iff.2 (.inl ⟨rfl, brackets⟩),
          readEquals_eq_ok_iff.2 (.inr ⟨rfl, rfl, equals⟩)⟩

/-! ## Values -/

theorem ofRun_eq_runValue (run : List Token) : Value.ofRun run = runValue run := by
  cases run with
  | nil => rfl
  | cons token run =>
      cases run with
      | nil => cases token <;> rfl
      | cons => cases token <;> rfl

theorem endsRun_eq_false_iff {inArray : Bool} {token : Token} :
    endsRun inArray token = false ↔ token.StandsInRun inArray := by
  cases token <;> simp [endsRun, Token.StandsInRun]

/-- A run is read up to a token that stops it. -/
theorem readRun_eq_ok_iff {inArray : Bool} {value : Value} {lexemes rest : List Lexeme} :
    readRun inArray lexemes = .ok (value, rest) ↔
      ∃ run, Consumes lexemes run rest ∧ (ValueTree.run run).Fits inArray (nextToken rest) ∧
        runValue run = value := by
  constructor
  · intro read
    simp only [readRun] at read
    split at read
    · cases read
    · rename_i noBrace
      split at read
      · cases read
      · rename_i nonempty
        simp only [Except.ok.injEq, Prod.mk.injEq] at read
        obtain ⟨rfl, rfl⟩ := read
        refine ⟨_, ⟨_, (List.takeWhile_append_dropWhile).symm, rfl⟩, ⟨?_, ?_, ?_⟩,
          (ofRun_eq_runValue _).symm⟩
        · simpa using nonempty
        · intro token member
          obtain ⟨lexeme, lexemeMember, rfl⟩ := List.mem_map.1 member
          have stands := List.all_eq_true.1 List.all_takeWhile lexeme lexemeMember
          exact endsRun_eq_false_iff.1 (by simpa using stands)
        · cases left : lexemes.dropWhile fun lexeme => !endsRun inArray lexeme.token with
          | nil => exact .inl rfl
          | cons first rest =>
              have stops := List.head?_dropWhile_not
                (fun lexeme : Lexeme => !endsRun inArray lexeme.token) lexemes
              rw [left] at stops noBrace
              obtain ⟨token, line⟩ := first
              cases token <;> simp_all [endsRun, StopsRun]
  · rintro ⟨_, ⟨run, rfl, rfl⟩, ⟨nonempty, stands, stops⟩, rfl⟩
    have runs : ∀ lexeme ∈ run, (!endsRun inArray lexeme.token) = true := by
      intro lexeme member
      rw [endsRun_eq_false_iff.2 (stands _ (List.mem_map_of_mem member))]
      rfl
    have ends : ∀ lexeme ∈ rest.head?, endsRun inArray lexeme.token = true := by
      intro lexeme member
      rw [Option.mem_def] at member
      rw [nextToken, member, Option.map_some] at stops
      cases ending : endsRun inArray lexeme.token with
      | true => rfl
      | false => exact absurd stops (endsRun_eq_false_iff.1 ending).not_stopsRun
    have taken : (run ++ rest).takeWhile (fun lexeme => !endsRun inArray lexeme.token) = run := by
      rw [List.takeWhile_append_of_pos runs]
      cases rest with
      | nil => simp
      | cons first rest => simp [ends first rfl]
    have left : (run ++ rest).dropWhile (fun lexeme => !endsRun inArray lexeme.token) = rest := by
      rw [List.dropWhile_append_of_pos runs]
      cases rest with
      | nil => simp
      | cons first rest => simp [ends first rfl]
    have noBrace : rest.head?.map Lexeme.token ≠ some .openBrace := by
      intro brace
      rw [nextToken, brace] at stops
      simp [StopsRun] at stops
    have someRun : run.isEmpty = false := by simpa using nonempty
    simp only [readRun, taken, left, if_neg noBrace, someRun, Bool.false_eq_true, if_false,
      ofRun_eq_runValue]

theorem ElementsTree.tokens_ne_nil (elements : ElementsTree) : elements.tokens ≠ [] := by
  cases elements <;> simp [ElementsTree.tokens]

/-- A value begins with an opening brace exactly if it is an array. -/
theorem ValueTree.Fits.array_of_openBrace {inArray : Bool} {next : Option Token}
    {value : ValueTree} {first : Lexeme} {lexemes rest : List Lexeme}
    (fits : value.Fits inArray next) (consumes : Consumes (first :: lexemes) value.tokens rest) :
    (∃ elements, value = .array elements) ↔ first.token = .openBrace := by
  cases value with
  | array elements =>
      have brace := (cons_consumes_cons_iff.1 consumes).1
      exact ⟨fun _ => brace, fun _ => ⟨elements, rfl⟩⟩
  | run tokens =>
      obtain ⟨token, tokens, rfl⟩ := List.exists_cons_of_ne_nil fits.1
      obtain ⟨rfl, -⟩ := cons_consumes_cons_iff.1 consumes
      constructor
      · rintro ⟨_, ⟨⟩⟩
      · intro brace
        exact absurd brace (fits.2.1 _ List.mem_cons_self).1

/-- No value begins with a closing brace. -/
theorem ValueTree.Fits.ne_closeBrace {inArray : Bool} {next : Option Token} {value : ValueTree}
    {first : Lexeme} {lexemes rest : List Lexeme} (fits : value.Fits inArray next)
    (consumes : Consumes (first :: lexemes) value.tokens rest) : first.token ≠ .closeBrace := by
  cases value with
  | array elements =>
      rw [(cons_consumes_cons_iff.1 consumes).1]
      exact Token.noConfusion
  | run tokens =>
      obtain ⟨token, tokens, rfl⟩ := List.exists_cons_of_ne_nil fits.1
      rw [(cons_consumes_cons_iff.1 consumes).1]
      exact (fits.2.1 _ List.mem_cons_self).2.1

/-- Whether a reader of the items of an array reads just what derives from given lexemes. -/
def ReadsItems (readItems : List Lexeme → Except Failure (List Value × List Lexeme))
    (lexemes : List Lexeme) : Prop :=
  ∀ values rest, readItems lexemes = .ok (values, rest) ↔
    ∃ elements : ElementsTree, Consumes lexemes elements.tokens rest ∧ elements.Fits ∧
      elements.values = values

section Elements

variable {readItems : List Lexeme → Except Failure (List Value × List Lexeme)} {value : Value}
  {values : List Value} {first : Lexeme} {lexemes rest : List Lexeme}

theorem readElement_eq_ok_iff (reads : ReadsItems readItems lexemes) :
    readElement readItems first lexemes = .ok (value, rest) ↔
      ∃ tree : ValueTree, Consumes (first :: lexemes) tree.tokens rest ∧
        tree.Fits true (nextToken rest) ∧ tree.value = value := by
  unfold readElement
  split
  · rename_i brace
    rw [bind_eq_ok_iff]
    constructor
    · rintro ⟨⟨items, left⟩, read, result⟩
      cases result
      obtain ⟨elements, consumes, fits, rfl⟩ := (reads _ _).1 read
      exact ⟨.array elements, cons_consumes_cons_iff.2 ⟨brace, consumes⟩, fits, rfl⟩
    · rintro ⟨tree, consumes, fits, rfl⟩
      obtain ⟨elements, rfl⟩ := (fits.array_of_openBrace consumes).2 brace
      exact ⟨(elements.values, rest),
        (reads _ _).2 ⟨elements, (cons_consumes_cons_iff.1 consumes).2, fits, rfl⟩, rfl⟩
  · rename_i notBrace
    rw [readRun_eq_ok_iff]
    constructor
    · rintro ⟨run, consumes, fits, rfl⟩
      exact ⟨.run run, consumes, fits, rfl⟩
    · rintro ⟨tree, consumes, fits, rfl⟩
      cases tree with
      | run run => exact ⟨run, consumes, fits, rfl⟩
      | array elements =>
          exact absurd ((fits.array_of_openBrace consumes).1 ⟨elements, rfl⟩) notBrace

/-- An item is followed by a comma and other items, or by the closing brace. -/
theorem readFollowing_eq_ok_iff
    (reads : ∀ comma remaining, lexemes = comma :: remaining → ReadsItems readItems remaining) :
    readFollowing readItems value lexemes = .ok (values, rest) ↔
      (∃ others : ElementsTree, Consumes lexemes (.comma :: others.tokens) rest ∧ others.Fits ∧
        value :: others.values = values) ∨
      (Consumes lexemes [.closeBrace] rest ∧ [value] = values) := by
  unfold readFollowing
  split
  · rename_i line remaining
    rw [bind_eq_ok_iff]
    constructor
    · rintro ⟨⟨others, left⟩, read, result⟩
      cases result
      obtain ⟨elements, consumes, fits, rfl⟩ := (reads _ _ rfl _ _).1 read
      exact .inl ⟨elements, cons_consumes_cons_iff.2 ⟨rfl, consumes⟩, fits, rfl⟩
    · rintro (⟨elements, consumes, fits, rfl⟩ | ⟨consumes, -⟩)
      · exact ⟨(elements.values, rest), (reads _ _ rfl _ _).2
          ⟨elements, (cons_consumes_cons_iff.1 consumes).2, fits, rfl⟩, rfl⟩
      · cases (cons_consumes_cons_iff.1 consumes).1
  · constructor
    · intro result
      cases result
      exact .inr ⟨cons_consumes_cons_iff.2 ⟨rfl, consumes_nil_iff.2 rfl⟩, rfl⟩
    · rintro (⟨elements, consumes, -⟩ | ⟨consumes, rfl⟩)
      · cases (cons_consumes_cons_iff.1 consumes).1
      · obtain rfl := consumes_nil_iff.1 (cons_consumes_cons_iff.1 consumes).2
        rfl
  · rename_i noComma noBrace
    simp only [reduceCtorEq, false_iff]
    have nothing : ∀ token tokens, Consumes lexemes (token :: tokens) rest →
        token = .comma ∨ token = .closeBrace → False := by
      intro token tokens consumes either
      cases lexemes with
      | nil => exact not_nil_consumes_cons consumes
      | cons found remaining =>
          obtain ⟨foundToken, line⟩ := found
          obtain ⟨rfl, -⟩ := cons_consumes_cons_iff.1 consumes
          rcases either with rfl | rfl
          · exact noComma _ _ rfl
          · exact noBrace _ _ rfl
    rintro (⟨elements, consumes, -⟩ | ⟨consumes, -⟩)
    · exact nothing _ _ consumes (.inl rfl)
    · exact nothing _ _ consumes (.inr rfl)

end Elements

/-- The items of an array are read up to and with its closing brace. The induction
is on the bound, which also covers the arrays inside. -/
theorem readArrayItems_eq_ok_iff {bound : Nat} {values : List Value} {lexemes rest : List Lexeme}
    (enough : lexemes.length ≤ bound) :
    readArrayItems bound lexemes = .ok (values, rest) ↔
      ∃ elements : ElementsTree, Consumes lexemes elements.tokens rest ∧ elements.Fits ∧
        elements.values = values := by
  induction bound generalizing lexemes values rest with
  | zero =>
      obtain rfl := List.length_eq_zero_iff.1 (Nat.le_zero.1 enough)
      simp only [readArrayItems, reduceCtorEq, false_iff]
      rintro ⟨elements, consumes, -⟩
      have lengths := consumes.length_eq
      exact elements.tokens_ne_nil (List.length_eq_zero_iff.1 (by simp at lengths; omega))
  | succ bound ih =>
      cases lexemes with
      | nil =>
          simp only [readArrayItems, reduceCtorEq, false_iff]
          rintro ⟨elements, consumes, -⟩
          have lengths := consumes.length_eq
          exact elements.tokens_ne_nil (List.length_eq_zero_iff.1 (by simp at lengths; omega))
      | cons first lexemes =>
          have reads : ∀ shorter : List Lexeme, shorter.length ≤ lexemes.length →
              ReadsItems (readArrayItems bound) shorter :=
            fun shorter fewer values rest =>
              ih (Nat.le_trans fewer (Nat.le_of_succ_le_succ enough))
          have following : ∀ {tree : ValueTree} {after : List Lexeme},
              Consumes (first :: lexemes) tree.tokens after → ∀ comma remaining,
                after = comma :: remaining → ReadsItems (readArrayItems bound) remaining := by
            rintro tree _ consumes comma remaining rfl
            have lengths := consumes.length_eq
            simp only [List.length_cons] at lengths
            exact reads remaining (by omega)
          rw [readArrayItems]
          split
          · rename_i close
            constructor
            · rintro ⟨⟩
              exact ⟨.close, cons_consumes_cons_iff.2 ⟨close, consumes_nil_iff.2 rfl⟩, trivial, rfl⟩
            · rintro ⟨elements, consumes, fits, rfl⟩
              cases elements with
              | close =>
                  rw [consumes_nil_iff.1 (cons_consumes_cons_iff.1 consumes).2]
                  rfl
              | last value =>
                  obtain ⟨middle, consumesValue, -⟩ := consumes_append_iff.1 consumes
                  exact absurd close (ValueTree.Fits.ne_closeBrace fits consumesValue)
              | more value others =>
                  obtain ⟨middle, consumesValue, -⟩ := consumes_append_iff.1 consumes
                  exact absurd close (ValueTree.Fits.ne_closeBrace fits.1 consumesValue)
          · rename_i notClose
            simp only [bind_eq_ok_iff, Prod.exists, readElement_eq_ok_iff (reads lexemes (Nat.le_refl _))]
            constructor
            · rintro ⟨_, after, ⟨tree, consumes, fits, rfl⟩, read⟩
              rcases (readFollowing_eq_ok_iff (following consumes)).1 read with
                ⟨others, consumesRest, restFits, rfl⟩ | ⟨consumesRest, rfl⟩
              · rw [consumesRest.nextToken_eq] at fits
                exact ⟨.more tree others, consumes.append consumesRest, ⟨fits, restFits⟩, rfl⟩
              · rw [consumesRest.nextToken_eq] at fits
                exact ⟨.last tree, consumes.append consumesRest, fits, rfl⟩
            · rintro ⟨elements, consumes, fits, rfl⟩
              cases elements with
              | close => exact absurd (cons_consumes_cons_iff.1 consumes).1 notClose
              | last value =>
                  obtain ⟨after, consumesValue, consumesRest⟩ := consumes_append_iff.1 consumes
                  have next : nextToken after = some .closeBrace := consumesRest.nextToken_eq
                  exact ⟨value.value, after, ⟨value, consumesValue, next ▸ fits, rfl⟩,
                    (readFollowing_eq_ok_iff (following consumesValue)).2 (.inr ⟨consumesRest, rfl⟩)⟩
              | more value others =>
                  obtain ⟨after, consumesValue, consumesRest⟩ := consumes_append_iff.1 consumes
                  have next : nextToken after = some .comma := consumesRest.nextToken_eq
                  exact ⟨value.value, after, ⟨value, consumesValue, next ▸ fits.1, rfl⟩,
                    (readFollowing_eq_ok_iff (following consumesValue)).2
                      (.inl ⟨others, consumesRest, fits.2, rfl⟩)⟩

theorem readValue_eq_ok_iff {value : Value} {lexemes rest : List Lexeme} :
    readValue lexemes = .ok (value, rest) ↔
      ∃ tree : ValueTree, Consumes lexemes tree.tokens rest ∧ tree.Fits false (nextToken rest) ∧
        tree.value = value := by
  unfold readValue
  split
  · rename_i line after
    rw [bind_eq_ok_iff]
    constructor
    · rintro ⟨⟨values, left⟩, read, result⟩
      cases result
      obtain ⟨elements, consumes, fits, rfl⟩ := (readArrayItems_eq_ok_iff (Nat.le_refl _)).1 read
      exact ⟨.array elements, cons_consumes_cons_iff.2 ⟨rfl, consumes⟩, fits, rfl⟩
    · rintro ⟨tree, consumes, fits, rfl⟩
      obtain ⟨elements, rfl⟩ := (fits.array_of_openBrace consumes).2 rfl
      have read := (readArrayItems_eq_ok_iff (Nat.le_refl _)).2
        ⟨elements, (cons_consumes_cons_iff.1 consumes).2, fits, rfl⟩
      exact ⟨(elements.values, rest), read, rfl⟩
  · rename_i notBrace
    rw [readRun_eq_ok_iff]
    constructor
    · rintro ⟨run, consumes, fits, rfl⟩
      exact ⟨.run run, consumes, fits, rfl⟩
    · rintro ⟨tree, consumes, fits, rfl⟩
      cases tree with
      | run run => exact ⟨run, consumes, fits, rfl⟩
      | array elements =>
          cases lexemes with
          | nil => exact absurd consumes not_nil_consumes_cons
          | cons first after =>
              obtain ⟨token, line⟩ := first
              obtain ⟨rfl, -⟩ := cons_consumes_cons_iff.1 consumes
              exact absurd rfl (notBrace line after)

/-! ## Items -/

/-- An assignment is read exactly where its name, its mark, its value and its end
follow one another. -/
theorem readAssignment_eq_ok_iff {assignment : Assignment} {lexemes rest : List Lexeme} :
    readAssignment lexemes = .ok (assignment, rest) ↔
      ∃ (name : Text) (mark : Mark) (value : ValueTree) (ending : Ending)
        (afterMark afterValue : List Lexeme),
        Consumes lexemes (.word name :: mark.tokens) afterMark ∧
        Consumes afterMark value.tokens afterValue ∧ value.Fits false (nextToken afterValue) ∧
        Consumes afterValue ending.tokens rest ∧ ending.Fits (nextToken rest) ∧
        assignment =
          { name, isArray := mark.isArray, appends := mark.appends, value := value.value } := by
  simp only [readAssignment, bind_eq_ok_iff, Prod.exists]
  constructor
  · rintro ⟨name, afterName, readName, isArray, afterBrackets, readArray, appends, afterMark,
      readSign, value, afterValue, readIt, ⟨⟩, left, readIts, result⟩
    cases result
    obtain ⟨mark, rfl, rfl, markConsumes⟩ := readMark_iff.1 ⟨afterBrackets, readArray, readSign⟩
    obtain ⟨tree, treeConsumes, treeFits, rfl⟩ := readValue_eq_ok_iff.1 readIt
    obtain ⟨ending, endConsumes, endFits⟩ := readEnd_eq_ok_iff.1 readIts
    have nameConsumes := readWord_eq_ok_iff.1 readName
    exact ⟨name, mark, tree, ending, afterMark, afterValue,
      nameConsumes.append markConsumes, treeConsumes, treeFits,
      endConsumes, endFits, rfl⟩
  · rintro ⟨name, mark, tree, ending, afterMark, afterValue, consumes, treeConsumes, treeFits,
      endConsumes, endFits, rfl⟩
    obtain ⟨afterName, nameConsumes, markConsumes⟩ :=
      consumes_append_iff.1 (show Consumes _ ([_] ++ _) _ from consumes)
    obtain ⟨afterBrackets, readArray, readSign⟩ := readMark_iff.2 ⟨mark, rfl, rfl, markConsumes⟩
    exact ⟨name, afterName, readWord_eq_ok_iff.2 nameConsumes, mark.isArray, afterBrackets,
      readArray, mark.appends, afterMark, readSign, tree.value, afterValue,
      readValue_eq_ok_iff.2 ⟨tree, treeConsumes, treeFits, rfl⟩, (), rest,
      readEnd_eq_ok_iff.2 ⟨ending, endConsumes, endFits⟩, rfl⟩

theorem readDeletion_eq_ok_iff {lexemes rest : List Lexeme} :
    readDeletion lexemes = .ok ((), rest) ↔
      ∃ (name : Text) (ending : Ending), Consumes lexemes (.word name :: ending.tokens) rest ∧
        ending.Fits (nextToken rest) := by
  simp only [readDeletion, bind_eq_ok_iff, Prod.exists, readWord_eq_ok_iff, readEnd_eq_ok_iff]
  constructor
  · rintro ⟨name, afterName, nameConsumes, ending, endConsumes, fits⟩
    exact ⟨name, ending, nameConsumes.append endConsumes, fits⟩
  · rintro ⟨name, ending, consumes, fits⟩
    obtain ⟨afterName, nameConsumes, endConsumes⟩ :=
      consumes_append_iff.1 (show Consumes _ ([_] ++ _) _ from consumes)
    exact ⟨name, afterName, nameConsumes, ending, endConsumes, fits⟩

/-- A class is read as its name, its base, its contents if there are any, and its
end, in front of the items that follow. -/
theorem readItems_class_iff {bound : Nat} {inClass : Bool} {body : Body} {first : Lexeme}
    {lexemes rest : List Lexeme} (keyword : first.token = .word classKeyword) :
    readItems (bound + 1) inClass (first :: lexemes) = .ok (body, rest) ↔
      ∃ (name : Text) (base : Option Text) (inner others : Body)
        (afterName afterBase afterClass next : List Lexeme),
        readWord className lexemes = .ok (name, afterName) ∧
        readBase afterName = .ok (base, afterBase) ∧
        ((∃ line contents afterContents, afterBase = ⟨.openBrace, line⟩ :: contents ∧
            readItems bound true contents = .ok (inner, afterContents) ∧
            afterClass = afterContents.drop 1) ∨
          (nextToken afterBase ≠ some .openBrace ∧ inner = {} ∧ afterClass = afterBase)) ∧
        readEnd afterClass = .ok ((), next) ∧
        readItems bound inClass next = .ok (others, rest) ∧
        body = others.addClass { name, base, classes := inner.classes
                                 assignments := inner.assignments } := by
  rw [readItems, keyword]
  simp only [if_true, bind_eq_ok_iff, Prod.exists]
  constructor
  · rintro ⟨name, afterName, readName, base, afterBase, readIt, inner, afterClass, readInner,
      ⟨⟩, next, readIts, others, after, readOthers, result⟩
    cases result
    refine ⟨name, base, inner, others, afterName, afterBase, afterClass, next, readName, readIt,
      ?_, readIts, readOthers, rfl⟩
    split at readInner
    · rename_i line contents
      rw [bind_eq_ok_iff] at readInner
      obtain ⟨⟨inside, afterContents⟩, readContents, result⟩ := readInner
      cases result
      exact .inl ⟨line, contents, afterContents, rfl, readContents, rfl⟩
    · rename_i notBrace
      cases readInner
      refine .inr ⟨fun brace => ?_, rfl, rfl⟩
      cases afterBase with
      | nil => cases brace
      | cons head tail =>
          obtain ⟨token, line⟩ := head
          obtain rfl := Option.some.inj brace
          exact notBrace line tail rfl
  · rintro ⟨name, base, inner, others, afterName, afterBase, afterClass, next, readName, readIt,
      inside, readIts, readOthers, rfl⟩
    refine ⟨name, afterName, readName, base, afterBase, readIt, inner, afterClass, ?_, (), next,
      readIts, others, rest, readOthers, rfl⟩
    rcases inside with ⟨line, contents, afterContents, rfl, readContents, rfl⟩ | ⟨noBrace, rfl, rfl⟩
    · exact bind_eq_ok_iff.2 ⟨(inner, afterContents), readContents, rfl⟩
    · split
      · exact absurd rfl noBrace
      · rfl

/-- What follows the items of a text or of a class. -/
def closing (inClass : Bool) : Option Token := if inClass then some .closeBrace else none

/-- Items that are read are derived by a tree in front of what is left. The
induction is on the bound, as the contents of a class are read with it too. -/
theorem readItems_sound {bound : Nat} {inClass : Bool} {body : Body} {lexemes rest : List Lexeme}
    (enough : lexemes.length ≤ bound) (read : readItems bound inClass lexemes = .ok (body, rest)) :
    nextToken rest = closing inClass ∧
      ∃ items : ItemsTree, Consumes lexemes items.tokens rest ∧ items.Fits (nextToken rest) ∧
        items.body = body := by
  induction bound generalizing inClass lexemes body rest with
  | zero =>
      obtain rfl := List.length_eq_zero_iff.1 (Nat.le_zero.1 enough)
      cases inClass with
      | true => cases read
      | false =>
          cases read
          exact ⟨rfl, .nil, consumes_nil_iff.2 rfl, trivial, rfl⟩
  | succ bound ih =>
      cases lexemes with
      | nil =>
          cases inClass with
          | true => cases read
          | false =>
              cases read
              exact ⟨rfl, .nil, consumes_nil_iff.2 rfl, trivial, rfl⟩
      | cons first lexemes =>
          have shorter : lexemes.length ≤ bound := Nat.le_of_succ_le_succ enough
          cases kind : first.token with
          | closeBrace =>
              rw [readItems, kind] at read
              cases inClass with
              | false => cases read
              | true =>
                  cases read
                  exact ⟨congrArg some kind, .nil, consumes_nil_iff.2 rfl, trivial, rfl⟩
          | semicolon =>
              rw [readItems, kind] at read
              obtain ⟨closed, items, consumes, fits, rfl⟩ := ih shorter read
              exact ⟨closed, .stray items, cons_consumes_cons_iff.2 ⟨kind, consumes⟩, fits, rfl⟩
          | word keyword =>
              by_cases isClass : keyword = classKeyword
              · obtain ⟨name, base, inner, others, afterName, afterBase, afterClass, next, readName,
                  readIt, inside, readIts, readOthers, rfl⟩ :=
                  (readItems_class_iff (isClass ▸ kind)).1 read
                have nameConsumes := readWord_eq_ok_iff.1 readName
                obtain ⟨baseConsumes, -⟩ := readBase_eq_ok_iff.1 readIt
                obtain ⟨ending, endConsumes, endFits⟩ := readEnd_eq_ok_iff.1 readIts
                have nameLength := nameConsumes.length_eq
                have baseLength := baseConsumes.length_eq
                have endLength := endConsumes.length_eq
                rcases inside with
                  ⟨line, contents, afterContents, rfl, readContents, rfl⟩ | ⟨-, rfl, rfl⟩
                · rw [List.length_cons] at baseLength
                  obtain ⟨innerClosed, innerItems, innerConsumes, innerFits, rfl⟩ :=
                    ih (by omega) readContents
                  have innerLength := innerConsumes.length_eq
                  rw [List.length_drop] at endLength
                  obtain ⟨closed, items, consumes, fits, rfl⟩ := ih (by omega) readOthers
                  cases afterContents with
                  | nil => cases innerClosed
                  | cons brace afterContents =>
                      have closes : brace.token = .closeBrace := Option.some.inj innerClosed
                      have itemConsumes := endConsumes.append consumes
                      have contentsConsumes := innerConsumes.append
                        (cons_consumes_cons_iff.2 ⟨closes, itemConsumes⟩)
                      refine ⟨closed, .definition name base innerItems ending items,
                        cons_consumes_cons_iff.2 ⟨isClass ▸ kind, nameConsumes.append
                          (baseConsumes.append (cons_consumes_cons_iff.2 ⟨rfl, contentsConsumes⟩))⟩,
                        ⟨?_, consumes.nextToken_eq ▸ endFits, fits⟩, rfl⟩
                      rw [← closes]
                      exact innerFits
                · obtain ⟨closed, items, consumes, fits, rfl⟩ := ih (by omega) readOthers
                  exact ⟨closed, .declaration name base ending items,
                    cons_consumes_cons_iff.2 ⟨isClass ▸ kind, nameConsumes.append
                      (baseConsumes.append (endConsumes.append consumes))⟩,
                    ⟨consumes.nextToken_eq ▸ endFits, fits⟩, rfl⟩
              · rw [readItems, kind] at read
                by_cases isDeletion : keyword = deleteKeyword
                · simp only [if_neg isClass, if_pos isDeletion, bind_eq_ok_iff, Prod.exists] at read
                  obtain ⟨⟨⟩, next, readIts, readOthers⟩ := read
                  obtain ⟨name, ending, endConsumes, endFits⟩ := readDeletion_eq_ok_iff.1 readIts
                  have endLength := endConsumes.length_eq
                  obtain ⟨closed, items, consumes, fits, rfl⟩ := ih (by omega) readOthers
                  exact ⟨closed, .deletion name ending items,
                    cons_consumes_cons_iff.2 ⟨isDeletion ▸ kind, endConsumes.append consumes⟩,
                    ⟨consumes.nextToken_eq ▸ endFits, fits⟩, rfl⟩
                · simp only [if_neg isClass, if_neg isDeletion, bind_eq_ok_iff, Prod.exists] at read
                  obtain ⟨assignment, next, readIts, others, after, readOthers, result⟩ := read
                  cases result
                  obtain ⟨name, mark, value, ending, afterMark, afterValue, markConsumes,
                    valueConsumes, valueFits, endConsumes, endFits, rfl⟩ :=
                    readAssignment_eq_ok_iff.1 readIts
                  obtain ⟨named, afterName⟩ := cons_consumes_cons_iff.1 markConsumes
                  obtain rfl : keyword = name := Token.word.inj (kind.symm.trans named)
                  have markLength := afterName.length_eq
                  have valueLength := valueConsumes.length_eq
                  have endLength := endConsumes.length_eq
                  obtain ⟨closed, items, consumes, fits, rfl⟩ := ih (by omega) readOthers
                  have itemConsumes := endConsumes.append consumes
                  exact ⟨closed, .assignment keyword mark value ending items,
                    markConsumes.append (valueConsumes.append itemConsumes),
                    ⟨isClass, isDeletion, itemConsumes.nextToken_eq ▸ valueFits,
                      consumes.nextToken_eq ▸ endFits, fits⟩, rfl⟩
          | _ => simp [readItems, kind] at read

/-- What is left before the end of an item stops a run. -/
theorem Ending.Fits.stopsRun_of_consumes {ending : Ending} {lexemes rest : List Lexeme}
    (fits : ending.Fits (nextToken rest)) (consumes : Consumes lexemes ending.tokens rest) :
    StopsRun false (nextToken lexemes) := by
  cases ending with
  | semicolon => exact .inr (.inl consumes.nextToken_eq)
  | omitted =>
      rw [consumes_nil_iff.1 consumes]
      exact EndsItem.stopsRun fits

/-- A bound on the length of a list that is not empty is a successor. -/
theorem exists_bound {first : Lexeme} {tail : List Lexeme} {bound : Nat}
    (enough : (first :: tail).length ≤ bound) :
    ∃ less, bound = less + 1 ∧ tail.length ≤ less := by
  cases bound with
  | zero => cases enough
  | succ less => exact ⟨less, rfl, Nat.le_of_succ_le_succ enough⟩

/-- Items that a tree derives up to the end of the text or of the class are read. -/
theorem readItems_complete {inClass : Bool} {items : ItemsTree} {bound : Nat}
    {lexemes rest : List Lexeme} (enough : lexemes.length ≤ bound)
    (consumes : Consumes lexemes items.tokens rest) (fits : items.Fits (nextToken rest))
    (closed : nextToken rest = closing inClass) :
    readItems bound inClass lexemes = .ok (items.body, rest) := by
  induction items generalizing bound inClass lexemes rest with
  | nil =>
      obtain rfl := consumes_nil_iff.1 consumes
      cases lexemes with
      | nil =>
          cases inClass with
          | true => cases closed
          | false => cases bound <;> rfl
      | cons first lexemes =>
          cases inClass with
          | false => cases closed
          | true =>
              obtain ⟨less, rfl, -⟩ := exists_bound enough
              rw [readItems, show first.token = .closeBrace from Option.some.inj closed]
              rfl
  | stray others ih =>
      obtain ⟨first, tail, rfl, semicolon, othersConsumes⟩ := consumes.exists_cons
      obtain ⟨less, rfl, fewer⟩ := exists_bound enough
      rw [readItems, semicolon]
      exact ih fewer othersConsumes fits closed
  | declaration name base ending others ih =>
      obtain ⟨first, tail, rfl, keyword, afterKeyword⟩ := consumes.exists_cons
      obtain ⟨less, rfl, fewer⟩ := exists_bound enough
      obtain ⟨afterName, nameConsumes, afterName'⟩ :=
        consumes_append_iff.1 (show Consumes tail ([_] ++ _) rest from afterKeyword)
      obtain ⟨afterBase, baseConsumes, afterBase'⟩ := consumes_append_iff.1 afterName'
      obtain ⟨next, endConsumes, othersConsumes⟩ := consumes_append_iff.1 afterBase'
      have endFits : ending.Fits (nextToken next) := othersConsumes.nextToken_eq ▸ fits.1
      have stops := endFits.stopsRun_of_consumes endConsumes
      have nameLength := nameConsumes.length_eq
      have baseLength := baseConsumes.length_eq
      have endLength := endConsumes.length_eq
      have noColon : base = none → nextToken afterName ≠ some .colon := by
        rintro rfl
        rw [consumes_nil_iff.1 baseConsumes]
        exact stops.ne_colon
      exact (readItems_class_iff keyword).2 ⟨name, base, {}, others.body, afterName, afterBase,
        afterBase, next, readWord_eq_ok_iff.2 nameConsumes,
        readBase_eq_ok_iff.2 ⟨baseConsumes, noColon⟩, .inr ⟨stops.ne_openBrace, rfl, rfl⟩,
        readEnd_eq_ok_iff.2 ⟨ending, endConsumes, endFits⟩,
        ih (by omega) othersConsumes fits.2 closed, rfl⟩
  | definition name base contents ending others innerIh ih =>
      obtain ⟨first, tail, rfl, keyword, afterKeyword⟩ := consumes.exists_cons
      obtain ⟨less, rfl, fewer⟩ := exists_bound enough
      obtain ⟨afterName, nameConsumes, afterName'⟩ :=
        consumes_append_iff.1 (show Consumes tail ([_] ++ _) rest from afterKeyword)
      obtain ⟨afterBase, baseConsumes, afterBase'⟩ := consumes_append_iff.1 afterName'
      obtain ⟨brace, inside, rfl, opens, insideConsumes⟩ := afterBase'.exists_cons
      obtain ⟨afterContents, innerConsumes, afterContents'⟩ := consumes_append_iff.1 insideConsumes
      obtain ⟨close, afterClass, rfl, closes, afterClass'⟩ := afterContents'.exists_cons
      obtain ⟨next, endConsumes, othersConsumes⟩ := consumes_append_iff.1 afterClass'
      have endFits : ending.Fits (nextToken next) := othersConsumes.nextToken_eq ▸ fits.2.1
      have nameLength := nameConsumes.length_eq
      have baseLength := baseConsumes.length_eq
      have innerLength := innerConsumes.length_eq
      have endLength := endConsumes.length_eq
      rw [List.length_cons] at baseLength innerLength
      have innerClosed : nextToken (close :: afterClass) = closing true := congrArg some closes
      have noColon : base = none → nextToken afterName ≠ some .colon := by
        rintro rfl
        rw [consumes_nil_iff.1 baseConsumes, nextToken_cons, opens]
        exact nofun
      have readContents : readItems less true inside = .ok (contents.body, close :: afterClass) :=
        innerIh (by omega) innerConsumes (innerClosed ▸ fits.1) innerClosed
      obtain ⟨_, line⟩ := brace
      obtain rfl : _ = Token.openBrace := opens
      exact (readItems_class_iff keyword).2 ⟨name, base, contents.body, others.body, afterName, _,
        afterClass, next, readWord_eq_ok_iff.2 nameConsumes,
        readBase_eq_ok_iff.2 ⟨baseConsumes, noColon⟩,
        .inl ⟨line, inside, close :: afterClass, rfl, readContents, rfl⟩,
        readEnd_eq_ok_iff.2 ⟨ending, endConsumes, endFits⟩,
        ih (by omega) othersConsumes fits.2.2 closed, rfl⟩
  | deletion name ending others ih =>
      obtain ⟨first, tail, rfl, keyword, afterKeyword⟩ := consumes.exists_cons
      obtain ⟨less, rfl, fewer⟩ := exists_bound enough
      obtain ⟨next, endConsumes, othersConsumes⟩ :=
        consumes_append_iff.1 (show Consumes tail ((_ :: _) ++ _) rest from afterKeyword)
      have endFits : ending.Fits (nextToken next) := othersConsumes.nextToken_eq ▸ fits.1
      have endLength := endConsumes.length_eq
      rw [readItems, keyword]
      simp only [if_neg classKeyword_ne_deleteKeyword.symm, if_true, bind_eq_ok_iff, Prod.exists]
      exact ⟨(), next, readDeletion_eq_ok_iff.2 ⟨name, ending, endConsumes, endFits⟩,
        ih (by omega) othersConsumes fits.2 closed⟩
  | assignment name mark value ending others ih =>
      obtain ⟨notClass, notDeletion, valueFits, endingFits, othersFits⟩ := fits
      obtain ⟨afterMark, markConsumes, afterMark'⟩ :=
        consumes_append_iff.1 (show Consumes lexemes ((_ :: _) ++ _) rest from consumes)
      obtain ⟨afterValue, valueConsumes, afterValue'⟩ := consumes_append_iff.1 afterMark'
      obtain ⟨next, endConsumes, othersConsumes⟩ := consumes_append_iff.1 afterValue'
      have endFits : ending.Fits (nextToken next) := othersConsumes.nextToken_eq ▸ endingFits
      have markLength := markConsumes.length_eq
      have valueLength := valueConsumes.length_eq
      have endLength := endConsumes.length_eq
      rw [List.length_cons] at markLength
      obtain ⟨first, tail, rfl, named, -⟩ := consumes.exists_cons
      obtain ⟨less, rfl, fewer⟩ := exists_bound enough
      have readIt := readAssignment_eq_ok_iff.2 ⟨name, mark, value, ending, afterMark, afterValue,
        markConsumes, valueConsumes, afterValue'.nextToken_eq ▸ valueFits, endConsumes, endFits, rfl⟩
      rw [readItems, named]
      simp only [if_neg notClass, if_neg notDeletion, bind_eq_ok_iff, Prod.exists]
      exact ⟨_, next, readIt, others.body, rest, ih (by omega) othersConsumes othersFits closed, rfl⟩

/-- A token list is read exactly if the grammar derives it, and what is read is
what its only derivation stands for. -/
theorem readBody_eq_ok_iff_derives (lexemes : List Lexeme) :
    (∀ body, readBody lexemes = .ok body ↔
      ∃ items : ItemsTree, items.Derives (lexemes.map Lexeme.token) ∧ items.body = body) ∧
    (∀ first second : ItemsTree, first.Derives (lexemes.map Lexeme.token) →
      second.Derives (lexemes.map Lexeme.token) → first = second) := by
  constructor
  · intro body
    constructor
    · intro read
      obtain ⟨⟨found, rest⟩, readAll, rfl⟩ := map_eq_ok_iff.1 read
      obtain ⟨closed, items, consumes, fits, rfl⟩ := readItems_sound (Nat.le_refl _) readAll
      obtain rfl := nextToken_eq_none_iff.1 closed
      exact ⟨items, ⟨consumes_end_iff.1 consumes, fits⟩, rfl⟩
    · rintro ⟨items, ⟨tokensEq, fits⟩, rfl⟩
      have readAll : readItems lexemes.length false lexemes = .ok (items.body, []) :=
        readItems_complete (Nat.le_refl _) (consumes_end_iff.2 tokensEq) fits rfl
      exact map_eq_ok_iff.2 ⟨_, readAll, rfl⟩
  · intro first second firstDerives secondDerives
    exact firstDerives.unique secondDerives

end AddonIndex.ClassConfig
