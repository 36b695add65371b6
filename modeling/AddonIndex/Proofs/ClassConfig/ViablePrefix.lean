import AddonIndex.Proofs.ClassConfig.Accepts
import AddonIndex.Proofs.ClassConfig.Lookahead
import AddonIndex.Proofs.ClassConfig.Position

/-!
# Errors are found at the first token that is wrong

A token list is viable if it can be continued to one that is read. Where a reading function fails,
the tokens that it has passed are completed to a part of a derivation, and the parts that are open
around it are completed in turn: arrays and classes are closed, and items ended. So the tokens
before the offending one are viable. With the offending one they are not, since what is read up to a
token does not depend on what comes after it.
-/

namespace AddonIndex.ClassConfig

/-! ## What has been passed, and what may come after it -/

/-- Whether the tokens that a failed reading has passed begin the given ones. -/
def Continues (lexemes : List Lexeme) (failure : Failure) (tokens : List Token) : Prop :=
  ∃ passed more, Consumes lexemes passed failure.rest ∧ tokens = passed ++ more

section Continues

variable {lexemes rest : List Lexeme} {failure : Failure} {first : Lexeme} {token : Token}
  {front tokens : List Token}

/-- Anything may come where nothing has been passed. -/
theorem continues_of_rest_eq (nothing : failure.rest = lexemes) (tokens : List Token) :
    Continues lexemes failure tokens :=
  ⟨[], tokens, consumes_nil_iff.2 nothing.symm, rfl⟩

theorem Continues.append (continues : Continues lexemes failure tokens) (later : List Token) :
    Continues lexemes failure (tokens ++ later) := by
  obtain ⟨passed, more, consumes, rfl⟩ := continues
  exact ⟨passed, more ++ later, consumes, List.append_assoc _ _ _⟩

/-- What is read before a reading that fails is passed too. -/
theorem Continues.after (continues : Continues rest failure tokens)
    (consumes : Consumes lexemes front rest) : Continues lexemes failure (front ++ tokens) := by
  obtain ⟨passed, more, consumesMore, rfl⟩ := continues
  exact ⟨front ++ passed, more, consumes.append consumesMore, (List.append_assoc _ _ _).symm⟩

theorem Continues.cons (continues : Continues lexemes failure tokens)
    (tokenEq : first.token = token) : Continues (first :: lexemes) failure (token :: tokens) :=
  continues.after (cons_consumes_cons_iff.2 ⟨tokenEq, consumes_nil_iff.2 rfl⟩)

end Continues

/-- Items fit before another token if it ends an item as well. -/
theorem ItemsTree.Fits.of_endsItem {items : ItemsTree} {next other : Option Token}
    (fits : items.Fits next) (ends : EndsItem next → EndsItem other) : items.Fits other := by
  have endingFits {ending : Ending} (head : Option Token) (fits : ending.Fits (head.or next)) :
      ending.Fits (head.or other) := by
    cases ending with
    | semicolon => trivial
    | omitted =>
        cases head with
        | none => exact ends fits
        | some token => exact fits
  induction items with
  | nil => trivial
  | stray rest ih => exact ih fits
  | declaration name base ending rest ih => exact ⟨endingFits _ fits.1, ih fits.2⟩
  | definition name base contents ending rest _ ih =>
      exact ⟨fits.1, endingFits _ fits.2.1, ih fits.2.2⟩
  | deletion name ending rest ih => exact ⟨endingFits _ fits.1, ih fits.2⟩
  | assignment name mark value ending rest ih =>
      obtain ⟨notClass, notDeletion, valueFits, isEnding, restFits⟩ := fits
      refine ⟨notClass, notDeletion, valueFits.of_stopsRun ?_, endingFits _ isEnding, ih restFits⟩
      cases ending with
      | semicolon => exact .inr (.inl rfl)
      | omitted => exact EndsItem.stopsRun (endingFits _ isEnding)

/-! ## Words, ends and marks -/

theorem rest_of_readWord_eq_error {what : Text} {lexemes : List Lexeme} {failure : Failure}
    (fails : readWord what lexemes = .error failure) : failure.rest = lexemes := by
  unfold readWord at fails
  split at fails <;> cases fails <;> rfl

theorem rest_of_readEnd_eq_error {lexemes : List Lexeme} {failure : Failure}
    (fails : readEnd lexemes = .error failure) : failure.rest = lexemes := by
  cases lexemes with
  | nil => cases fails
  | cons first lexemes =>
      simp only [readEnd] at fails
      split at fails
      · cases fails
      · split at fails <;> cases fails
        rfl

theorem rest_of_readEquals_eq_error {name : Text} {isArray : Bool} {lexemes : List Lexeme}
    {failure : Failure} (fails : readEquals name isArray lexemes = .error failure) :
    failure.rest = lexemes := by
  cases lexemes with
  | nil =>
      cases fails
      rfl
  | cons first lexemes =>
      simp only [readEquals] at fails
      split at fails
      · cases fails
      · split at fails <;> cases fails
        rfl

/-- A base that cannot be read has begun with a colon. -/
theorem continues_of_readBase_eq_error {lexemes : List Lexeme} {failure : Failure}
    (fails : readBase lexemes = .error failure) (name : Text) :
    Continues lexemes failure (baseTokens (some name)) := by
  unfold readBase at fails
  split at fails
  · rcases bind_eq_error_iff.1 fails with wordFails | ⟨_, _, result⟩
    · exact (continues_of_rest_eq (rest_of_readWord_eq_error wordFails) [.word name]).cons rfl
    · cases result
  · cases fails

theorem consumes_of_readBrackets_eq_error {lexemes : List Lexeme} {failure : Failure}
    (fails : readBrackets lexemes = .error failure) :
    Consumes lexemes [.openBracket] failure.rest := by
  unfold readBrackets at fails
  split at fails <;> cases fails
  exact cons_consumes_cons_iff.2 ⟨rfl, consumes_nil_iff.2 rfl⟩

/-- The brackets and the sign of an assignment fail inside a mark. -/
theorem continues_mark (name : Text) {lexemes : List Lexeme} {failure : Failure}
    (fails : readBrackets lexemes = .error failure ∨ ∃ isArray rest,
      readBrackets lexemes = .ok (isArray, rest) ∧ readEquals name isArray rest = .error failure) :
    ∃ mark : Mark, Continues lexemes failure mark.tokens := by
  rcases fails with bracketsFail | ⟨isArray, rest, brackets, equalsFails⟩
  · exact ⟨.array, [.openBracket], [.closeBracket, .equals],
      consumes_of_readBrackets_eq_error bracketsFail, rfl⟩
  · have nothing := continues_of_rest_eq (rest_of_readEquals_eq_error equalsFails) [.equals]
    rcases readBrackets_eq_ok_iff.1 brackets with ⟨rfl, consumes⟩ | ⟨rfl, rfl, -⟩
    · exact ⟨.array, nothing.after consumes⟩
    · exact ⟨.plain, nothing⟩

/-! ## Values -/

/-- A run that fails goes on with a word, whether it has begun or not. -/
theorem continues_of_readRun_eq_error {inArray : Bool} {lexemes : List Lexeme} {failure : Failure}
    (fails : readRun inArray lexemes = .error failure) :
    ∃ value : ValueTree, Continues lexemes failure value.tokens ∧
      value.Fits inArray (some .closeBrace) := by
  let run := lexemes.takeWhile fun lexeme => !endsRun inArray lexeme.token
  let rest := lexemes.dropWhile fun lexeme => !endsRun inArray lexeme.token
  have left : failure.rest = rest := by
    simp only [readRun] at fails
    split at fails
    · cases fails
      rfl
    · split at fails <;> cases fails
      rfl
  have whole : lexemes = run ++ rest := List.takeWhile_append_dropWhile.symm
  have stands : ∀ token ∈ run.map Lexeme.token, token.StandsInRun inArray := by
    intro token member
    obtain ⟨lexeme, lexemeMember, rfl⟩ := List.mem_map.1 member
    have runs := List.all_eq_true.1 List.all_takeWhile lexeme lexemeMember
    exact endsRun_eq_false_iff.1 (by simpa using runs)
  refine ⟨.run (run.map Lexeme.token ++ [.word ['x']]), ?_, by simp, ?_, .inr (.inr (.inl rfl))⟩
  · exact ⟨run.map Lexeme.token, [.word ['x']], ⟨run, left ▸ whole, rfl⟩, rfl⟩
  · simp only [List.mem_append, List.mem_singleton]
    rintro token (member | rfl)
    · exact stands token member
    · simp [Token.StandsInRun]

section Elements

variable {readItems : List Lexeme → Except Failure (List Value × List Lexeme)}
  {first : Lexeme} {lexemes : List Lexeme} {failure : Failure}

/-- Whether a reader of the items of an array fails inside an array. -/
def FailsInside (readItems : List Lexeme → Except Failure (List Value × List Lexeme))
    (lexemes : List Lexeme) : Prop :=
  ∀ failure, readItems lexemes = .error failure →
    ∃ elements : ElementsTree, Continues lexemes failure elements.tokens ∧ elements.Fits

theorem continues_of_readElement_eq_error (inside : FailsInside readItems lexemes)
    (fails : readElement readItems first lexemes = .error failure) :
    ∃ value : ValueTree, Continues (first :: lexemes) failure value.tokens ∧
      value.Fits true (some .closeBrace) := by
  unfold readElement at fails
  split at fails
  · rename_i opens
    rcases bind_eq_error_iff.1 fails with itemsFail | ⟨_, _, result⟩
    · obtain ⟨elements, continues, fits⟩ := inside failure itemsFail
      exact ⟨.array elements, continues.cons opens, fits⟩
    · cases result
  · exact continues_of_readRun_eq_error fails

/-- What follows an item fails inside the items after a comma, or is neither a comma nor the closing
brace. -/
theorem continues_of_readFollowing_eq_error {value : Value}
    (inside : ∀ comma rest, lexemes = comma :: rest → FailsInside readItems rest)
    (fails : readFollowing readItems value lexemes = .error failure) :
    (∃ elements : ElementsTree, Continues lexemes failure (.comma :: elements.tokens) ∧
      elements.Fits) ∨ failure.rest = lexemes := by
  unfold readFollowing at fails
  split at fails
  · rcases bind_eq_error_iff.1 fails with itemsFail | ⟨_, _, result⟩
    · obtain ⟨elements, continues, fits⟩ := inside _ _ rfl failure itemsFail
      exact .inl ⟨elements, continues.cons rfl, fits⟩
    · cases result
  · cases fails
  · cases fails
    exact .inr rfl

end Elements

/-- The items of an array fail inside an array. The induction is on the bound, which also covers the
arrays inside. -/
theorem failsInside_readArrayItems {bound : Nat} {lexemes : List Lexeme}
    (enough : lexemes.length ≤ bound) : FailsInside (readArrayItems bound) lexemes := by
  induction bound generalizing lexemes with
  | zero =>
      intro failure fails
      obtain rfl := List.length_eq_zero_iff.1 (Nat.le_zero.1 enough)
      have nothing : failure.rest = [] := by
        cases fails
        rfl
      exact ⟨.close, continues_of_rest_eq nothing _, trivial⟩
  | succ bound ih =>
      intro failure fails
      cases lexemes with
      | nil =>
          have nothing : failure.rest = [] := by
            cases fails
            rfl
          exact ⟨.close, continues_of_rest_eq nothing _, trivial⟩
      | cons first lexemes =>
          have fewer : lexemes.length ≤ bound := Nat.le_of_succ_le_succ enough
          rw [readArrayItems] at fails
          split at fails
          · cases fails
          · rcases bind_eq_error_iff.1 fails with elementFails | ⟨⟨_, after⟩, read, followingFails⟩
            · obtain ⟨value, continues, fits⟩ :=
                continues_of_readElement_eq_error (ih fewer) elementFails
              exact ⟨.last value, continues.append [.closeBrace], fits⟩
            · have reads : ReadsItems (readArrayItems bound) lexemes :=
                fun _ _ => readArrayItems_eq_ok_iff fewer
              obtain ⟨value, consumes, fits, rfl⟩ := (readElement_eq_ok_iff reads).1 read
              have inside (comma : Lexeme) (rest : List Lexeme) (same : after = comma :: rest) :
                  FailsInside (readArrayItems bound) rest := by
                have lengths := consumes.length_eq
                rw [same, List.length_cons, List.length_cons] at lengths
                exact ih (by omega)
              rcases continues_of_readFollowing_eq_error inside followingFails with
                ⟨elements, continues, elementsFit⟩ | nothing
              · exact ⟨.more value elements, continues.after consumes,
                  fits.of_stopsRun (.inr (.inr (.inr ⟨rfl, rfl⟩))), elementsFit⟩
              · exact ⟨.last value, (continues_of_rest_eq nothing [.closeBrace]).after consumes,
                  fits.of_stopsRun (.inr (.inr (.inl rfl)))⟩

theorem continues_of_readValue_eq_error {lexemes : List Lexeme} {failure : Failure}
    (fails : readValue lexemes = .error failure) :
    ∃ value : ValueTree, Continues lexemes failure value.tokens ∧
      value.Fits false (some .semicolon) := by
  unfold readValue at fails
  split at fails
  · rcases bind_eq_error_iff.1 fails with itemsFail | ⟨_, _, result⟩
    · obtain ⟨elements, continues, fits⟩ := failsInside_readArrayItems (Nat.le_refl _) _ itemsFail
      exact ⟨.array elements, continues.cons rfl, fits⟩
    · cases result
  · obtain ⟨value, continues, fits⟩ := continues_of_readRun_eq_error fails
    exact ⟨value, continues, fits.of_stopsRun (.inr (.inl rfl))⟩

/-! ## Assignments and deletions -/

theorem continues_of_readAssignment_eq_error {name : Text} {first : Lexeme} {lexemes : List Lexeme}
    {failure : Failure} (isWord : first.token = .word name)
    (fails : readAssignment (first :: lexemes) = .error failure) :
    ∃ (mark : Mark) (value : ValueTree),
      Continues (first :: lexemes) failure
        (.word name :: (mark.tokens ++ (value.tokens ++ [.semicolon]))) ∧
      value.Fits false (some .semicolon) := by
  let word : ValueTree := .run [.word ['x']]
  have wordFits : word.Fits false (some .semicolon) := by
    simp [word, ValueTree.Fits, Token.StandsInRun, StopsRun]
  have readName : readWord propertyName (first :: lexemes) = .ok (name, lexemes) :=
    readWord_eq_ok_iff.2 (cons_consumes_cons_iff.2 ⟨isWord, consumes_nil_iff.2 rfl⟩)
  simp only [readAssignment, readName, ok_bind, bind_eq_error_iff, Prod.exists] at fails
  rcases fails with bracketsFail | ⟨isArray, afterBrackets, brackets, fails⟩
  · obtain ⟨mark, continues⟩ := continues_mark name (.inl bracketsFail)
    exact ⟨mark, word, (continues.append _).cons isWord, wordFits⟩
  rcases fails with equalsFails | ⟨appends, afterMark, equals, fails⟩
  · obtain ⟨mark, continues⟩ :=
      continues_mark name (.inr ⟨isArray, afterBrackets, brackets, equalsFails⟩)
    exact ⟨mark, word, (continues.append _).cons isWord, wordFits⟩
  obtain ⟨mark, -, -, consumesMark⟩ := readMark_iff.1 ⟨afterBrackets, brackets, equals⟩
  rcases fails with valueFails | ⟨_, afterValue, read, fails⟩
  · obtain ⟨value, continues, fits⟩ := continues_of_readValue_eq_error valueFails
    exact ⟨mark, value, ((continues.append _).after consumesMark).cons isWord, fits⟩
  obtain ⟨value, consumesValue, fits, -⟩ := readValue_eq_ok_iff.1 read
  rcases fails with endFails | ⟨_, _, _, result⟩
  · have nothing := continues_of_rest_eq (rest_of_readEnd_eq_error endFails) [.semicolon]
    exact ⟨mark, value, ((nothing.after consumesValue).after consumesMark).cons isWord,
      fits.of_stopsRun (.inr (.inl rfl))⟩
  · cases result

theorem continues_of_readDeletion_eq_error {lexemes : List Lexeme} {failure : Failure}
    (fails : readDeletion lexemes = .error failure) :
    ∃ name : Text, Continues lexemes failure [.word name, .semicolon] := by
  rcases bind_eq_error_iff.1 fails with wordFails | ⟨⟨name, rest⟩, word, endFails⟩
  · exact ⟨['x'], continues_of_rest_eq (rest_of_readWord_eq_error wordFails) _⟩
  · have nothing := continues_of_rest_eq (rest_of_readEnd_eq_error endFails) [.semicolon]
    exact ⟨name, nothing.after (readWord_eq_ok_iff.1 word)⟩

/-! ## Classes -/

/-- A class alone, with its contents if it has any. -/
def ItemsTree.ofClass (name : Text) (base : Option Text) : Option ItemsTree → Ending → ItemsTree
  | none, ending => .declaration name base ending .nil
  | some contents, ending => .definition name base contents ending .nil

/-- The tokens of the contents of a class, with their braces. -/
def contentsTokens : Option ItemsTree → List Token
  | none => []
  | some contents => .openBrace :: (contents.tokens ++ [.closeBrace])

theorem ItemsTree.tokens_ofClass (name : Text) (base : Option Text) (contents : Option ItemsTree)
    (ending : Ending) :
    (ofClass name base contents ending).tokens =
      .word classKeyword :: .word name ::
        (baseTokens base ++ (contentsTokens contents ++ ending.tokens)) := by
  cases contents <;> simp [ofClass, tokens, contentsTokens]

theorem ItemsTree.fits_ofClass {name : Text} {base : Option Text} {contents : Option ItemsTree}
    {ending : Ending} {next : Option Token}
    (contentsFit : ∀ inner ∈ contents, inner.Fits (some .closeBrace)) (fits : ending.Fits next) :
    (ofClass name base contents ending).Fits next := by
  cases contents with
  | none => exact ⟨fits, trivial⟩
  | some inner => exact ⟨contentsFit inner rfl, fits, trivial⟩

theorem consumes_of_readContents {bound : Nat} {lexemes rest : List Lexeme} {inner : Body}
    (enough : lexemes.length ≤ bound) (read : readContents bound lexemes = .ok (inner, rest)) :
    ∃ contents : Option ItemsTree, Consumes lexemes (contentsTokens contents) rest ∧
      ∀ items ∈ contents, items.Fits (some .closeBrace) := by
  unfold readContents at read
  split at read
  · rename_i contents
    obtain ⟨⟨body, afterContents⟩, readIt, result⟩ := bind_eq_ok_iff.1 read
    cases result
    obtain ⟨closed, items, consumes, fits, -⟩ :=
      readItems_sound (Nat.le_of_succ_le enough) readIt
    cases afterContents with
    | nil => cases closed
    | cons brace afterContents =>
        have closes : brace.token = .closeBrace := Option.some.inj closed
        have consumesBrace : Consumes (brace :: afterContents) [.closeBrace] afterContents :=
          cons_consumes_cons_iff.2 ⟨closes, consumes_nil_iff.2 rfl⟩
        refine ⟨some items,
          cons_consumes_cons_iff.2 ⟨rfl, consumes.append consumesBrace⟩, ?_⟩
        rintro _ ⟨⟩
        rw [← closes]
        exact fits
  · cases read
    exact ⟨none, consumes_nil_iff.2 rfl, nofun⟩

section Classes

variable {bound : Nat} {first : Lexeme} {lexemes : List Lexeme} {failure : Failure}

/-- Whether a reader of the contents of a class fails inside them. -/
def FailsInContents (bound : Nat) (lexemes : List Lexeme) : Prop :=
  ∀ failure, readItems bound true lexemes = .error failure →
    ∃ items : ItemsTree, Continues lexemes failure items.tokens ∧ items.Fits (some .closeBrace)

theorem continues_of_readContents_eq_error
    (inside : ∀ brace contents, lexemes = brace :: contents → FailsInContents bound contents)
    (fails : readContents bound lexemes = .error failure) :
    ∃ contents : Option ItemsTree, Continues lexemes failure (contentsTokens contents) ∧
      ∀ items ∈ contents, items.Fits (some .closeBrace) := by
  unfold readContents at fails
  split at fails
  · rcases bind_eq_error_iff.1 fails with contentsFail | ⟨_, _, result⟩
    · obtain ⟨items, continues, fits⟩ := inside _ _ rfl failure contentsFail
      refine ⟨some items, (continues.append _).cons rfl, ?_⟩
      rintro _ ⟨⟩
      exact fits
    · cases result
  · cases fails

theorem consumes_of_readClass {found : ConfigClass} {rest : List Lexeme}
    (enough : lexemes.length ≤ bound) (read : readClass bound lexemes = .ok (found, rest)) :
    ∃ (item : ItemsTree) (tokens : List Token), item.tokens = .word classKeyword :: tokens ∧
      Consumes lexemes tokens rest ∧ item.Fits (nextToken rest) := by
  simp only [readClass, bind_eq_ok_iff, Prod.exists] at read
  obtain ⟨name, afterName, readName, base, afterBase, readIt, inner, afterClass, readInner, ⟨⟩, next,
    readIts, result⟩ := read
  cases result
  have nameConsumes := readWord_eq_ok_iff.1 readName
  obtain ⟨baseConsumes, -⟩ := readBase_eq_ok_iff.1 readIt
  have nameLength := nameConsumes.length_eq
  have baseLength := baseConsumes.length_eq
  obtain ⟨contents, contentsConsumes, contentsFit⟩ :=
    consumes_of_readContents (by omega) readInner
  obtain ⟨ending, endConsumes, endFits⟩ := readEnd_eq_ok_iff.1 readIts
  exact ⟨.ofClass name base contents ending, _, ItemsTree.tokens_ofClass name base contents ending,
    nameConsumes.append (baseConsumes.append (contentsConsumes.append endConsumes)),
    ItemsTree.fits_ofClass contentsFit endFits⟩

theorem continues_of_readClass_eq_error (keyword : first.token = .word classKeyword)
    (inside : ∀ contents, contents.length < lexemes.length → FailsInContents bound contents)
    (enough : lexemes.length ≤ bound) (fails : readClass bound lexemes = .error failure) :
    ∃ item : ItemsTree, Continues (first :: lexemes) failure item.tokens ∧
      ∀ next, item.Fits next := by
  -- A part of a class that fails, with what is left out behind it, is continued to a whole class.
  have ofPart (name : Text) (base : Option Text) (contents : Option ItemsTree)
      (contentsFit : ∀ inner ∈ contents, inner.Fits (some .closeBrace))
      (continues : Continues lexemes failure
        (.word name :: (baseTokens base ++ (contentsTokens contents ++ [.semicolon])))) :
      ∃ item : ItemsTree, Continues (first :: lexemes) failure item.tokens ∧
        ∀ next, item.Fits next := by
    refine ⟨.ofClass name base contents .semicolon, ?_, fun next => ?_⟩
    · rw [ItemsTree.tokens_ofClass]
      exact continues.cons keyword
    · exact ItemsTree.fits_ofClass contentsFit trivial
  have noContents : ∀ inner ∈ (none : Option ItemsTree), inner.Fits (some .closeBrace) := by simp
  simp only [readClass, bind_eq_error_iff, Prod.exists] at fails
  rcases fails with nameFails | ⟨name, afterName, readName, fails⟩
  · exact ofPart ['x'] none none noContents
      (continues_of_rest_eq (rest_of_readWord_eq_error nameFails) _)
  have nameConsumes := readWord_eq_ok_iff.1 readName
  have nameLength := nameConsumes.length_eq
  rcases fails with baseFails | ⟨base, afterBase, readIt, fails⟩
  · exact ofPart name (some ['x']) none noContents
      (((continues_of_readBase_eq_error baseFails ['x']).append _).after nameConsumes)
  obtain ⟨baseConsumes, -⟩ := readBase_eq_ok_iff.1 readIt
  have baseLength := baseConsumes.length_eq
  rcases fails with contentsFail | ⟨inner, afterClass, readInner, fails⟩
  · have inContents (brace : Lexeme) (contents : List Lexeme) (same : afterBase = brace :: contents) :
        FailsInContents bound contents := by
      rw [same, List.length_cons] at baseLength
      exact inside contents (by omega)
    obtain ⟨contents, continues, contentsFit⟩ :=
      continues_of_readContents_eq_error inContents contentsFail
    exact ofPart name base contents contentsFit
      (((continues.append _).after baseConsumes).after nameConsumes)
  obtain ⟨contents, contentsConsumes, contentsFit⟩ :=
    consumes_of_readContents (by omega) readInner
  rcases fails with endFails | ⟨_, _, _, result⟩
  · have nothing := continues_of_rest_eq (rest_of_readEnd_eq_error endFails) [.semicolon]
    exact ofPart name base contents contentsFit
      (((nothing.after contentsConsumes).after baseConsumes).after nameConsumes)
  · cases result

end Classes

/-! ## Items -/

theorem endsItem_closing (inClass : Bool) : EndsItem (closing inClass) := by
  cases inClass with
  | true => exact .inr rfl
  | false => exact .inl rfl

/-- What has not begun is continued by no items. -/
theorem exists_items_of_rest_eq {inClass : Bool} {lexemes : List Lexeme} {failure : Failure}
    (nothing : failure.rest = lexemes) :
    ∃ items : ItemsTree, Continues lexemes failure items.tokens ∧ items.Fits (closing inClass) ∧
      (EndsItem (nextToken lexemes) → items = .nil) :=
  ⟨.nil, continues_of_rest_eq nothing [], trivial, fun _ => rfl⟩

/-- Items that fail are continued to items that are complete before the end of the text or of the
class. Where an item may end without a semicolon, nothing more has been passed. The induction is on
the bound, as the contents of a class are read with it too. -/
theorem continues_of_readItems_eq_error {bound : Nat} {inClass : Bool} {lexemes : List Lexeme}
    {failure : Failure} (enough : lexemes.length ≤ bound)
    (fails : readItems bound inClass lexemes = .error failure) :
    ∃ items : ItemsTree, Continues lexemes failure items.tokens ∧ items.Fits (closing inClass) ∧
      (EndsItem (nextToken lexemes) → items = .nil) := by
  induction bound generalizing inClass lexemes failure with
  | zero =>
      obtain rfl := List.length_eq_zero_iff.1 (Nat.le_zero.1 enough)
      cases inClass with
      | true =>
          cases fails
          exact exists_items_of_rest_eq rfl
      | false => cases fails
  | succ bound ih =>
      cases lexemes with
      | nil =>
          cases inClass with
          | true =>
              cases fails
              exact exists_items_of_rest_eq rfl
          | false => cases fails
      | cons first lexemes =>
          have fewer : lexemes.length ≤ bound := Nat.le_of_succ_le_succ enough
          cases kind : first.token with
          | closeBrace =>
              rw [readItems, kind] at fails
              cases inClass with
              | true => cases fails
              | false =>
                  cases fails
                  exact exists_items_of_rest_eq rfl
          | semicolon =>
              rw [readItems, kind] at fails
              obtain ⟨items, continues, fits, -⟩ := ih fewer fails
              exact ⟨.stray items, continues.cons kind, fits, by simp [kind, EndsItem]⟩
          | word keyword =>
              have noEnd {P : Prop} (ends : EndsItem (nextToken (first :: lexemes))) : P := by
                simp [kind, EndsItem] at ends
              have afterItem (item : ItemsTree) {tokens : List Token} {next : List Lexeme}
                  (itemTokens : item.tokens = .word keyword :: tokens)
                  (consumes : Consumes lexemes tokens next) (itemFits : item.Fits (nextToken next))
                  (othersFail : readItems bound inClass next = .error failure) :
                  ∃ items : ItemsTree, Continues (first :: lexemes) failure items.tokens ∧
                    items.Fits (closing inClass) ∧
                    (EndsItem (nextToken (first :: lexemes)) → items = .nil) := by
                have lengths := consumes.length_eq
                obtain ⟨others, continues, fits, nothing⟩ := ih (by omega) othersFail
                refine ⟨item.append others, ?_, ItemsTree.fits_append_iff.2 ⟨?_, fits⟩, noEnd⟩
                · rw [ItemsTree.tokens_append, itemTokens]
                  exact (continues.after consumes).cons kind
                · refine itemFits.of_endsItem fun ends => ?_
                  rw [nothing ends]
                  exact endsItem_closing inClass
              by_cases isClass : keyword = classKeyword
              · have isKeyword : first.token = .word classKeyword := isClass ▸ kind
                rw [readItems_class isKeyword] at fails
                rcases bind_eq_error_iff.1 fails with classFails | ⟨⟨_, next⟩, read, othersFail⟩
                · have inside (contents : List Lexeme) (less : contents.length < lexemes.length) :
                      FailsInContents bound contents := by
                    intro failure contentsFail
                    obtain ⟨items, continues, fits, -⟩ := ih (by omega) contentsFail
                    exact ⟨items, continues, fits⟩
                  obtain ⟨item, continues, fits⟩ :=
                    continues_of_readClass_eq_error isKeyword inside fewer classFails
                  exact ⟨item, continues, fits _, noEnd⟩
                · obtain ⟨item, tokens, itemTokens, consumes, fits⟩ := consumes_of_readClass fewer read
                  rcases bind_eq_error_iff.1 othersFail with othersFail | ⟨_, _, result⟩
                  · exact afterItem item (isClass ▸ itemTokens) consumes fits othersFail
                  · cases result
              · by_cases isDeletion : keyword = deleteKeyword
                · rw [readItems_deletion (isDeletion ▸ kind)] at fails
                  rcases bind_eq_error_iff.1 fails with itemFails | ⟨⟨_, next⟩, read, othersFail⟩
                  · obtain ⟨name, continues⟩ := continues_of_readDeletion_eq_error itemFails
                    exact ⟨.deletion name .semicolon .nil, continues.cons (isDeletion ▸ kind),
                      ⟨trivial, trivial⟩, noEnd⟩
                  · obtain ⟨name, ending, consumes, fits⟩ := readDeletion_eq_ok_iff.1 read
                    refine afterItem (.deletion name ending .nil) ?_ consumes ⟨fits, trivial⟩
                      othersFail
                    rw [ItemsTree.tokens, ItemsTree.tokens, List.append_nil, isDeletion]
                · rw [readItems_assignment kind isClass isDeletion] at fails
                  rcases bind_eq_error_iff.1 fails with itemFails | ⟨⟨_, next⟩, read, othersFail⟩
                  · obtain ⟨mark, value, continues, fits⟩ :=
                      continues_of_readAssignment_eq_error kind itemFails
                    exact ⟨.assignment keyword mark value .semicolon .nil, continues,
                      ⟨isClass, isDeletion, fits, trivial, trivial⟩, noEnd⟩
                  · obtain ⟨name, mark, value, ending, afterMark, afterValue, markConsumes,
                      valueConsumes, valueFits, endConsumes, endFits, rfl⟩ :=
                      readAssignment_eq_ok_iff.1 read
                    obtain ⟨named, signConsumes⟩ := cons_consumes_cons_iff.1 markConsumes
                    obtain rfl : keyword = name := Token.word.inj (kind.symm.trans named)
                    have consumes := signConsumes.append (valueConsumes.append endConsumes)
                    rw [endConsumes.nextToken_eq] at valueFits
                    rcases bind_eq_error_iff.1 othersFail with othersFail | ⟨_, _, result⟩
                    · refine afterItem (.assignment keyword mark value ending .nil) ?_ consumes
                        ⟨isClass, isDeletion, ?_, endFits, trivial⟩ othersFail
                      · rw [ItemsTree.tokens, ItemsTree.tokens, List.append_nil]
                      · rw [ItemsTree.tokens, List.append_nil]
                        exact valueFits
                    · cases result
          | _ =>
              rw [readItems, kind] at fails
              cases fails
              exact exists_items_of_rest_eq rfl

/-! ## The first token that is wrong -/

/-- Whether tokens can be continued to a text that is read. -/
def IsViable (lexemes : List Lexeme) : Prop :=
  ∃ more body, readBody (lexemes ++ more) = .ok body

theorem IsViable.of_isFront {front lexemes : List Lexeme} (viable : IsViable lexemes)
    (isFront : front <+: lexemes) : IsViable front := by
  obtain ⟨later, rfl⟩ := isFront
  obtain ⟨more, body, read⟩ := viable
  exact ⟨later ++ more, body, by rwa [← List.append_assoc]⟩

variable {passed left : List Lexeme} {bad : Lexeme} {failure : Failure}

theorem readItems_of_readBody_eq_error {lexemes : List Lexeme}
    (fails : readBody lexemes = .error failure) :
    readItems lexemes.length false lexemes = .error failure :=
  map_eq_error_iff.1 fails

/-- The tokens before the offending one are viable. -/
theorem isViable_of_readBody_eq_error (fails : readBody (passed ++ failure.rest) = .error failure) :
    IsViable passed := by
  obtain ⟨items, ⟨tokens, more, ⟨consumed, whole, rfl⟩, itemTokens⟩, fits, -⟩ :=
    continues_of_readItems_eq_error (Nat.le_refl _) (readItems_of_readBody_eq_error fails)
  obtain rfl := List.append_cancel_right whole
  refine ⟨more.map fun token => ⟨token, 0⟩, items.body, ?_⟩
  refine ((readBody_eq_ok_iff_derives _).1 _).2 ⟨items, ⟨?_, fits⟩, rfl⟩
  rw [itemTokens, List.map_append, List.map_map]
  exact congrArg _ (List.map_id more).symm

/-- With the offending token they are not, as the reading fails there whatever comes next. -/
theorem not_isViable_of_readBody_eq_error (fails : readBody (passed ++ bad :: left) = .error failure)
    (offends : failure.rest = bad :: left) : ¬ IsViable (passed ++ [bad]) := by
  rintro ⟨more, body, read⟩
  rw [List.append_assoc, List.singleton_append] at read
  obtain ⟨cause, rest⟩ := failure
  cases offends
  have failsToo : readItems (passed ++ bad :: more).length false (passed ++ bad :: more) =
      .error ⟨cause, bad :: more⟩ :=
    (agrees_readItems false passed (Nat.le_refl _)).2 cause []
      (readItems_of_readBody_eq_error fails)
  obtain ⟨outcome, reads, -⟩ := map_eq_ok_iff.1 read
  rw [failsToo] at reads
  cases reads

/-- Where a text is rejected, the line of the error is that of the first token with which the tokens
up to it cannot be continued to a text that is read. If all of them can, the text ends too early, and
the line is that of its last token. -/
theorem line_of_first_unviable {lexemes : List Lexeme} (fails : readBody lexemes = .error failure) :
    (∃ passed bad left, lexemes = passed ++ bad :: left ∧
        (∀ front, front <+: passed → IsViable front) ∧ ¬ IsViable (passed ++ [bad]) ∧
        failure.line lexemes = bad.line) ∨
      ((∀ front, front <+: lexemes → IsViable front) ∧
        ∃ last, lexemes.getLast? = some last ∧ failure.line lexemes = last.line) := by
  obtain ⟨passed, bad, left, rfl, offends | ⟨atEnd, rfl⟩, line⟩ := exists_of_readBody_eq_error fails
  · refine .inl ⟨passed, bad, left, rfl, fun front isFront => ?_,
      not_isViable_of_readBody_eq_error fails offends, line⟩
    rw [← offends] at fails
    exact (isViable_of_readBody_eq_error fails).of_isFront isFront
  · refine .inr ⟨fun front isFront => ?_, bad, by simp, line⟩
    have failsAtEnd : readBody (passed ++ [bad] ++ failure.rest) = .error failure := by
      rwa [atEnd, List.append_nil]
    exact (isViable_of_readBody_eq_error failsAtEnd).of_isFront isFront

/-- The tokens of `x = y;` and, on the next line, of a class without a name. -/
def namelessClass : List Lexeme :=
  [⟨.word ['x'], 1⟩, ⟨.equals, 1⟩, ⟨.word ['y'], 1⟩, ⟨.semicolon, 1⟩, ⟨.word classKeyword, 2⟩,
    ⟨.openBrace, 2⟩, ⟨.closeBrace, 3⟩]

theorem line_of_namelessClass :
    let failure : Failure :=
      ⟨.expectedWord className (some .openBrace), [⟨.openBrace, 2⟩, ⟨.closeBrace, 3⟩]⟩
    readBody namelessClass = .error failure ∧
      ((∃ passed bad left, namelessClass = passed ++ bad :: left ∧
          (∀ front, front <+: passed → IsViable front) ∧ ¬ IsViable (passed ++ [bad]) ∧
          failure.line namelessClass = bad.line) ∨
        ((∀ front, front <+: namelessClass → IsViable front) ∧
          ∃ last, namelessClass.getLast? = some last ∧
            failure.line namelessClass = last.line)) :=
  ⟨rfl, line_of_first_unviable rfl⟩

end AddonIndex.ClassConfig
