import AddonIndex.ClassConfig.Parse

/-!
# The grammar of configs

Derivations are trees of their own, apart from the classes and assignments that
they stand for. A tree has the tokens that it derives, and it fits in front of
what follows those tokens: a run of tokens goes on as long as it can, and the
end of an item may be left out only before a closing brace and at the end of
the text. With this one token of context a token list has at most one
derivation.

That it has no other one goes by induction on one of the trees: two values that fit
before what follows them cannot share the front of a token list without being the
same, and of two sequences of items that do, one goes on where the other ends. What
follows is left open, since the tokens of a part are only a prefix of what is left.
-/

namespace AddonIndex.ClassConfig

/-! ## Derivations -/

mutual

/-- The derivation of a value. -/
inductive ValueTree
  | run (tokens : List Token)
  | array (elements : ElementsTree)

/-- The derivation of what follows the opening brace of an array, up to the
closing brace. After a comma the array may be over. -/
inductive ElementsTree
  | close
  | last (value : ValueTree)
  | more (value : ValueTree) (rest : ElementsTree)

end

/-- The end of an item. -/
inductive Ending
  | semicolon
  | omitted
deriving DecidableEq

/-- What stands between the name and the value of an assignment. -/
inductive Mark
  | plain
  | array
  | append
deriving DecidableEq

/-- The derivation of a sequence of items and stray semicolons. -/
inductive ItemsTree
  | nil
  | stray (rest : ItemsTree)
  | declaration (name : Text) (base : Option Text) (ending : Ending) (rest : ItemsTree)
  | definition (name : Text) (base : Option Text) (contents : ItemsTree) (ending : Ending)
      (rest : ItemsTree)
  | deletion (name : Text) (ending : Ending) (rest : ItemsTree)
  | assignment (name : Text) (mark : Mark) (value : ValueTree) (ending : Ending)
      (rest : ItemsTree)

/-! ## The tokens of a derivation -/

mutual

/-- The tokens of a value. -/
def ValueTree.tokens : ValueTree → List Token
  | .run tokens => tokens
  | .array elements => .openBrace :: elements.tokens

/-- The tokens after the opening brace of an array. -/
def ElementsTree.tokens : ElementsTree → List Token
  | .close => [.closeBrace]
  | .last value => value.tokens ++ [.closeBrace]
  | .more value rest => value.tokens ++ .comma :: rest.tokens

end

/-- The tokens of the end of an item. -/
def Ending.tokens : Ending → List Token
  | semicolon => [.semicolon]
  | omitted => []

/-- The tokens between the name and the value of an assignment. -/
def Mark.tokens : Mark → List Token
  | plain => [.equals]
  | array => [.openBracket, .closeBracket, .equals]
  | append => [.openBracket, .closeBracket, .plusEquals]

/-- The tokens after the name of a class that extends another one. -/
def baseTokens : Option Text → List Token
  | none => []
  | some base => [.colon, .word base]

/-- The tokens of a sequence of items. -/
def ItemsTree.tokens : ItemsTree → List Token
  | nil => []
  | stray rest => .semicolon :: rest.tokens
  | declaration name base ending rest =>
      .word classKeyword :: .word name :: (baseTokens base ++ (ending.tokens ++ rest.tokens))
  | definition name base contents ending rest =>
      .word classKeyword :: .word name :: (baseTokens base ++
        .openBrace :: (contents.tokens ++ .closeBrace :: (ending.tokens ++ rest.tokens)))
  | deletion name ending rest =>
      .word deleteKeyword :: .word name :: (ending.tokens ++ rest.tokens)
  | assignment name mark value ending rest =>
      .word name :: (mark.tokens ++ (value.tokens ++ (ending.tokens ++ rest.tokens)))

/-- Items in front of others. -/
def ItemsTree.append : (first later : ItemsTree) → ItemsTree
  | nil, later => later
  | stray rest, later => stray (rest.append later)
  | declaration name base ending rest, later => declaration name base ending (rest.append later)
  | definition name base contents ending rest, later =>
      definition name base contents ending (rest.append later)
  | deletion name ending rest, later => deletion name ending (rest.append later)
  | assignment name mark value ending rest, later =>
      assignment name mark value ending (rest.append later)

theorem ItemsTree.append_nil (items : ItemsTree) : items.append nil = items := by
  induction items <;> simp [append, *]

/-! ## Trees that fit before what follows -/

/-- Whether a token can stand in a run. -/
def Token.StandsInRun (inArray : Bool) (token : Token) : Prop :=
  token ≠ .openBrace ∧ token ≠ .closeBrace ∧ token ≠ .semicolon ∧
    (inArray = true → token ≠ .comma)

/-- Whether a run is over before what follows: the next token, or the end of the
text. -/
def StopsRun (inArray : Bool) (next : Option Token) : Prop :=
  next = none ∨ next = some .semicolon ∨ next = some .closeBrace ∨
    (inArray = true ∧ next = some .comma)

/-- Whether the end of an item may be left out before what follows. -/
def EndsItem (next : Option Token) : Prop := next = none ∨ next = some .closeBrace

mutual

/-- Whether a value can stand before what follows. -/
def ValueTree.Fits (inArray : Bool) (next : Option Token) : ValueTree → Prop
  | .run tokens =>
      tokens ≠ [] ∧ (∀ token ∈ tokens, token.StandsInRun inArray) ∧ StopsRun inArray next
  | .array elements => elements.Fits

/-- Whether the values of an array can stand where they do. -/
def ElementsTree.Fits : ElementsTree → Prop
  | .close => True
  | .last value => value.Fits true (some .closeBrace)
  | .more value rest => value.Fits true (some .comma) ∧ rest.Fits

end

/-- Whether the end of an item can stand before what follows. -/
def Ending.Fits (next : Option Token) : Ending → Prop
  | semicolon => True
  | omitted => EndsItem next

/-- Whether a sequence of items can stand before what follows. -/
def ItemsTree.Fits (next : Option Token) : ItemsTree → Prop
  | nil => True
  | stray rest => rest.Fits next
  | declaration _ _ ending rest => ending.Fits (rest.tokens.head?.or next) ∧ rest.Fits next
  | definition _ _ contents ending rest =>
      contents.Fits (some .closeBrace) ∧ ending.Fits (rest.tokens.head?.or next) ∧ rest.Fits next
  | deletion _ ending rest => ending.Fits (rest.tokens.head?.or next) ∧ rest.Fits next
  | assignment name _ value ending rest =>
      name ≠ classKeyword ∧ name ≠ deleteKeyword ∧
        value.Fits false ((ending.tokens ++ rest.tokens).head?.or next) ∧
        ending.Fits (rest.tokens.head?.or next) ∧ rest.Fits next

/-- Whether a tree is a derivation of a whole token list. -/
def ItemsTree.Derives (items : ItemsTree) (tokens : List Token) : Prop :=
  items.tokens = tokens ∧ items.Fits none

/-! ## What a derivation stands for -/

/-- The value of a token that is a literal. -/
def Token.literal? : Token → Option Value
  | .string text => some (.string text)
  | .number value => some (.number value)
  | _ => none

/-- The text of a run: its tokens with single blanks between them. -/
def runText (run : List Token) : Text := Text.joinWith [' '] (run.map Token.render)

/-- The value of a run: that of its only token if that is a literal, and the text
of the run otherwise. -/
def runValue : List Token → Value
  | [token] => token.literal?.getD (.raw (runText [token]))
  | run => .raw (runText run)

mutual

/-- The value that a derivation stands for. -/
def ValueTree.value : ValueTree → Value
  | .run tokens => runValue tokens
  | .array elements => .array elements.values

/-- The values of an array, in order. -/
def ElementsTree.values : ElementsTree → List Value
  | .close => []
  | .last value => [value.value]
  | .more value rest => value.value :: rest.values

end

/-- Whether a mark follows the name of an array. -/
def Mark.isArray : Mark → Bool
  | plain => false
  | array => true
  | append => true

/-- Whether a mark says that the value is appended. -/
def Mark.appends : Mark → Bool
  | append => true
  | _ => false

/-- The classes and assignments that a derivation stands for, each kind in
order. A deletion leaves nothing. -/
def ItemsTree.body : ItemsTree → Body
  | nil => {}
  | stray rest => rest.body
  | declaration name base _ rest =>
      rest.body.addClass { name, base, classes := [], assignments := [] }
  | definition name base contents _ rest =>
      rest.body.addClass
        { name, base, classes := contents.body.classes, assignments := contents.body.assignments }
  | deletion _ _ rest => rest.body
  | assignment name mark value _ rest =>
      rest.body.addAssignment
        { name, isArray := mark.isArray, appends := mark.appends, value := value.value }

/-! ## Runs and values -/

theorem Token.StandsInRun.not_stopsRun {inArray : Bool} {token : Token}
    (stands : token.StandsInRun inArray) : ¬ StopsRun inArray (some token) := by
  obtain ⟨_, notClose, notSemicolon, notComma⟩ := stands
  rintro (none | semicolon | close | ⟨array, comma⟩)
  · cases none
  · exact notSemicolon (Option.some.inj semicolon)
  · exact notClose (Option.some.inj close)
  · exact notComma array (Option.some.inj comma)

/-- A run is determined by where it stops. -/
theorem run_append_inj {inArray : Bool} {first second firstRest secondRest : List Token}
    (firstStands : ∀ token ∈ first, token.StandsInRun inArray)
    (secondStands : ∀ token ∈ second, token.StandsInRun inArray)
    (firstStops : StopsRun inArray firstRest.head?)
    (secondStops : StopsRun inArray secondRest.head?)
    (same : first ++ firstRest = second ++ secondRest) :
    first = second ∧ firstRest = secondRest := by
  induction first generalizing second with
  | nil =>
      cases second with
      | nil => exact ⟨rfl, same⟩
      | cons token second =>
          rw [List.nil_append, List.cons_append] at same
          rw [same] at firstStops
          exact absurd firstStops (secondStands token List.mem_cons_self).not_stopsRun
  | cons token first ih =>
      cases second with
      | nil =>
          rw [List.nil_append, List.cons_append] at same
          rw [← same] at secondStops
          exact absurd secondStops (firstStands token List.mem_cons_self).not_stopsRun
      | cons other second =>
          rw [List.cons_append, List.cons_append, List.cons.injEq] at same
          obtain ⟨rfl, same⟩ := same
          obtain ⟨rfl, rests⟩ := ih
            (fun token member => firstStands token (List.mem_cons_of_mem _ member))
            (fun token member => secondStands token (List.mem_cons_of_mem _ member)) same
          exact ⟨rfl, rests⟩

/-- A value begins with an opening brace or with a token that can stand in a run. -/
theorem ValueTree.Fits.exists_cons {inArray : Bool} {next : Option Token} {value : ValueTree}
    (fits : value.Fits inArray next) :
    ∃ first tokens, value.tokens = first :: tokens ∧
      (first = .openBrace ∨ first.StandsInRun inArray) := by
  cases value with
  | array elements => exact ⟨.openBrace, elements.tokens, rfl, .inl rfl⟩
  | run tokens =>
      obtain ⟨nonempty, stands, _⟩ := fits
      cases tokens with
      | nil => exact absurd rfl nonempty
      | cons first tokens =>
          exact ⟨first, tokens, rfl, .inr (stands first List.mem_cons_self)⟩

/-- A value does not begin with a closing brace. -/
theorem ValueTree.Fits.append_ne_closeBrace {inArray : Bool} {next : Option Token}
    {value : ValueTree} (fits : value.Fits inArray next) (tail rest : List Token) :
    value.tokens ++ tail ≠ .closeBrace :: rest := by
  obtain ⟨first, tokens, tokensEq, begins⟩ := fits.exists_cons
  rw [tokensEq, List.cons_append]
  intro same
  have firstEq : first = .closeBrace := (List.cons.inj same).1
  rcases begins with brace | stands
  · exact absurd (brace.symm.trans firstEq) (by decide)
  · exact stands.2.1 firstEq

/-- What fits before one token fits before another one that stops a run. -/
theorem ValueTree.Fits.of_stopsRun {inArray : Bool} {next other : Option Token} {value : ValueTree}
    (fits : value.Fits inArray next) (stops : StopsRun inArray other) : value.Fits inArray other := by
  cases value with
  | run tokens => exact ⟨fits.1, fits.2.1, stops⟩
  | array elements => exact fits

mutual

/-- Two values that fit before what follows them and share the front of a token
list are the same. -/
theorem ValueTree.append_inj (first second : ValueTree) {inArray : Bool}
    {firstRest secondRest : List Token}
    (same : first.tokens ++ firstRest = second.tokens ++ secondRest)
    (firstFits : first.Fits inArray firstRest.head?)
    (secondFits : second.Fits inArray secondRest.head?) :
    first = second ∧ firstRest = secondRest := by
  cases first with
  | run tokens =>
      cases second with
      | run others =>
          obtain ⟨tokensEq, restEq⟩ := run_append_inj firstFits.2.1 secondFits.2.1
            firstFits.2.2 secondFits.2.2 same
          exact ⟨congrArg ValueTree.run tokensEq, restEq⟩
      | array elements =>
          obtain ⟨token, tokens', rfl⟩ := List.exists_cons_of_ne_nil firstFits.1
          have brace : token = .openBrace := (List.cons.inj same).1
          exact absurd brace (firstFits.2.1 token List.mem_cons_self).1
  | array elements =>
      cases second with
      | run tokens =>
          obtain ⟨token, tokens', rfl⟩ := List.exists_cons_of_ne_nil secondFits.1
          have brace : token = .openBrace := (List.cons.inj same).1.symm
          exact absurd brace (secondFits.2.1 token List.mem_cons_self).1
      | array others =>
          obtain ⟨elementsEq, restEq⟩ :=
            ElementsTree.append_inj elements others (List.cons.inj same).2 firstFits secondFits
          exact ⟨congrArg ValueTree.array elementsEq, restEq⟩

/-- The contents of two arrays that share the front of a token list are the same. -/
theorem ElementsTree.append_inj (first second : ElementsTree)
    {firstRest secondRest : List Token}
    (same : first.tokens ++ firstRest = second.tokens ++ secondRest)
    (firstFits : first.Fits) (secondFits : second.Fits) :
    first = second ∧ firstRest = secondRest := by
  cases first with
  | close =>
      cases second with
      | close => exact ⟨rfl, (List.cons.inj same).2⟩
      | last value =>
          simp only [ElementsTree.tokens, List.append_assoc] at same
          exact absurd same.symm (ValueTree.Fits.append_ne_closeBrace secondFits _ _)
      | more value rest =>
          simp only [ElementsTree.tokens, List.append_assoc] at same
          exact absurd same.symm (ValueTree.Fits.append_ne_closeBrace secondFits.1 _ _)
  | last value =>
      simp only [ElementsTree.tokens, List.append_assoc, List.cons_append,
        List.nil_append] at same
      cases second with
      | close => exact absurd same (ValueTree.Fits.append_ne_closeBrace firstFits _ _)
      | last other =>
          simp only [ElementsTree.tokens, List.append_assoc, List.cons_append,
            List.nil_append] at same
          obtain ⟨valueEq, restEq⟩ := ValueTree.append_inj value other same firstFits secondFits
          exact ⟨congrArg ElementsTree.last valueEq, (List.cons.inj restEq).2⟩
      | more other rest =>
          simp only [ElementsTree.tokens, List.append_assoc, List.cons_append] at same
          obtain ⟨_, restEq⟩ := ValueTree.append_inj value other same firstFits secondFits.1
          exact absurd (List.cons.inj restEq).1 (by decide)
  | more value rest =>
      simp only [ElementsTree.tokens, List.append_assoc, List.cons_append] at same
      cases second with
      | close => exact absurd same (ValueTree.Fits.append_ne_closeBrace firstFits.1 _ _)
      | last other =>
          simp only [ElementsTree.tokens, List.append_assoc, List.cons_append,
            List.nil_append] at same
          obtain ⟨_, restEq⟩ := ValueTree.append_inj value other same firstFits.1 secondFits
          exact absurd (List.cons.inj restEq).1 (by decide)
      | more other others =>
          simp only [ElementsTree.tokens, List.append_assoc, List.cons_append] at same
          obtain ⟨rfl, tailEq⟩ := ValueTree.append_inj value other same firstFits.1 secondFits.1
          obtain ⟨rfl, restEq⟩ := ElementsTree.append_inj rest others (List.cons.inj tailEq).2
            firstFits.2 secondFits.2
          exact ⟨rfl, restEq⟩

end

/-! ## Items -/

theorem EndsItem.stopsRun {next : Option Token} (ends : EndsItem next) : StopsRun false next := by
  rcases ends with none | brace
  · exact .inl none
  · exact .inr (.inr (.inl brace))

theorem StopsRun.ne_colon {next : Option Token} (stops : StopsRun false next) :
    next ≠ some .colon := by
  rintro rfl
  simp [StopsRun] at stops

theorem StopsRun.ne_openBrace {next : Option Token} (stops : StopsRun false next) :
    next ≠ some .openBrace := by
  rintro rfl
  simp [StopsRun] at stops

/-- What follows a complete item before its end stops a run. -/
theorem Ending.Fits.stopsRun {ending : Ending} {rest : List Token}
    (fits : ending.Fits rest.head?) : StopsRun false (ending.tokens ++ rest).head? := by
  cases ending with
  | semicolon => exact .inr (.inl rfl)
  | omitted => exact EndsItem.stopsRun fits

theorem Ending.append_inj {first second : Ending} {firstRest secondRest : List Token}
    (same : first.tokens ++ firstRest = second.tokens ++ secondRest)
    (firstFits : first.Fits firstRest.head?) (secondFits : second.Fits secondRest.head?) :
    first = second ∧ firstRest = secondRest := by
  cases first with
  | semicolon =>
      cases second with
      | semicolon => exact ⟨rfl, (List.cons.inj same).2⟩
      | omitted =>
          rw [← show _ = secondRest from same] at secondFits
          simp [Ending.Fits, Ending.tokens, EndsItem] at secondFits
  | omitted =>
      cases second with
      | semicolon =>
          rw [show firstRest = _ from same] at firstFits
          simp [Ending.Fits, Ending.tokens, EndsItem] at firstFits
      | omitted => exact ⟨rfl, same⟩

theorem baseTokens_append_inj {first second : Option Text} {firstRest secondRest : List Token}
    (same : baseTokens first ++ firstRest = baseTokens second ++ secondRest)
    (firstNext : firstRest.head? ≠ some .colon) (secondNext : secondRest.head? ≠ some .colon) :
    first = second ∧ firstRest = secondRest := by
  cases first with
  | none =>
      cases second with
      | none => exact ⟨rfl, same⟩
      | some base => exact absurd (congrArg List.head? same) firstNext
  | some base =>
      cases second with
      | none => exact absurd (congrArg List.head? same).symm secondNext
      | some other =>
          simp only [baseTokens, List.cons_append, List.nil_append, List.cons.injEq,
            Token.word.injEq, true_and] at same
          exact ⟨congrArg some same.1, same.2⟩

theorem Mark.append_inj {first second : Mark} {firstRest secondRest : List Token}
    (same : first.tokens ++ firstRest = second.tokens ++ secondRest) :
    first = second ∧ firstRest = secondRest := by
  cases first <;> cases second <;> simp_all [Mark.tokens]

theorem classKeyword_ne_deleteKeyword : classKeyword ≠ deleteKeyword := by decide

/-- No item begins with a closing brace. -/
theorem ItemsTree.eq_nil_of_endsItem {items : ItemsTree} {rest tokens : List Token}
    (same : items.tokens ++ rest = tokens) (ends : EndsItem tokens.head?) : items = .nil := by
  rw [← same] at ends
  cases items with
  | nil => rfl
  | _ => simp [ItemsTree.tokens, EndsItem] at ends

/-- Of two sequences of items that share the front of a token list, the one that goes on up to a
closing brace or to the end begins with the other one. -/
theorem ItemsTree.exists_append (first second : ItemsTree) {firstRest secondRest : List Token}
    (same : first.tokens ++ firstRest = second.tokens ++ secondRest)
    (firstFits : first.Fits firstRest.head?) (secondFits : second.Fits secondRest.head?)
    (secondEnds : EndsItem secondRest.head?) :
    ∃ later : ItemsTree, second = first.append later ∧ later.tokens ++ secondRest = firstRest ∧
      later.Fits secondRest.head? := by
  induction first generalizing second firstRest secondRest with
  | nil => exact ⟨second, rfl, same.symm, secondFits⟩
  | stray rest ih =>
      cases second with
      | nil => cases eq_nil_of_endsItem same secondEnds
      | stray others =>
          obtain ⟨later, rfl, laterIs⟩ :=
            ih others (List.cons.inj same).2 firstFits secondFits secondEnds
          exact ⟨later, rfl, laterIs⟩
      | _ => simp [ItemsTree.tokens] at same
  | deletion name ending rest ih =>
      cases second with
      | deletion other otherEnding others =>
          simp only [ItemsTree.tokens, List.cons_append, List.append_assoc, List.cons.injEq,
            Token.word.injEq, true_and] at same
          simp only [ItemsTree.Fits, ← List.head?_append] at firstFits secondFits
          obtain ⟨rfl, afterName⟩ := same
          obtain ⟨rfl, afterEnding⟩ := Ending.append_inj afterName firstFits.1 secondFits.1
          obtain ⟨later, rfl, laterIs⟩ :=
            ih others afterEnding firstFits.2 secondFits.2 secondEnds
          exact ⟨later, rfl, laterIs⟩
      | nil => cases eq_nil_of_endsItem same secondEnds
      | assignment =>
          simp only [ItemsTree.tokens, List.cons_append, List.cons.injEq, Token.word.injEq] at same
          exact absurd same.1.symm secondFits.2.1
      | _ => simp [ItemsTree.tokens, classKeyword_ne_deleteKeyword.symm] at same
  | declaration name base ending rest ih =>
      cases second with
      | declaration other otherBase otherEnding others =>
          simp only [ItemsTree.tokens, List.cons_append, List.append_assoc, List.cons.injEq,
            Token.word.injEq, true_and] at same
          simp only [ItemsTree.Fits, ← List.head?_append] at firstFits secondFits
          obtain ⟨rfl, afterName⟩ := same
          obtain ⟨rfl, afterBase⟩ := baseTokens_append_inj afterName
            firstFits.1.stopsRun.ne_colon secondFits.1.stopsRun.ne_colon
          obtain ⟨rfl, afterEnding⟩ := Ending.append_inj afterBase firstFits.1 secondFits.1
          obtain ⟨later, rfl, laterIs⟩ :=
            ih others afterEnding firstFits.2 secondFits.2 secondEnds
          exact ⟨later, rfl, laterIs⟩
      | definition other otherBase contents otherEnding others =>
          simp only [ItemsTree.tokens, List.cons_append, List.append_assoc, List.cons.injEq,
            Token.word.injEq, true_and] at same
          simp only [ItemsTree.Fits, ← List.head?_append] at firstFits
          obtain ⟨_, afterBase⟩ :=
            baseTokens_append_inj same.2 firstFits.1.stopsRun.ne_colon (by simp)
          exact absurd (congrArg List.head? afterBase) firstFits.1.stopsRun.ne_openBrace
      | nil => cases eq_nil_of_endsItem same secondEnds
      | assignment =>
          simp only [ItemsTree.tokens, List.cons_append, List.cons.injEq, Token.word.injEq] at same
          exact absurd same.1.symm secondFits.1
      | _ => simp [ItemsTree.tokens, classKeyword_ne_deleteKeyword] at same
  | definition name base contents ending rest contentsIh ih =>
      cases second with
      | definition other otherBase otherContents otherEnding others =>
          simp only [ItemsTree.tokens, List.cons_append, List.append_assoc, List.cons.injEq,
            Token.word.injEq, true_and] at same
          simp only [ItemsTree.Fits, ← List.head?_append] at firstFits secondFits
          obtain ⟨rfl, afterName⟩ := same
          obtain ⟨rfl, afterBase⟩ := baseTokens_append_inj afterName (by simp) (by simp)
          -- The contents of the one class begin with those of the other, and both are over there.
          obtain ⟨more, rfl, afterContents, -⟩ := contentsIh otherContents
            (List.cons.inj afterBase).2 firstFits.1 secondFits.1 (.inr rfl)
          obtain rfl := eq_nil_of_endsItem afterContents (.inr rfl)
          obtain ⟨rfl, afterEnding⟩ := Ending.append_inj (List.cons.inj afterContents).2.symm
            firstFits.2.1 secondFits.2.1
          obtain ⟨later, rfl, laterIs⟩ :=
            ih others afterEnding firstFits.2.2 secondFits.2.2 secondEnds
          rw [append_nil]
          exact ⟨later, rfl, laterIs⟩
      | declaration other otherBase otherEnding others =>
          simp only [ItemsTree.tokens, List.cons_append, List.append_assoc, List.cons.injEq,
            Token.word.injEq, true_and] at same
          simp only [ItemsTree.Fits, ← List.head?_append] at secondFits
          obtain ⟨_, afterBase⟩ :=
            baseTokens_append_inj same.2 (by simp) secondFits.1.stopsRun.ne_colon
          exact absurd (congrArg List.head? afterBase).symm secondFits.1.stopsRun.ne_openBrace
      | nil => cases eq_nil_of_endsItem same secondEnds
      | assignment =>
          simp only [ItemsTree.tokens, List.cons_append, List.cons.injEq, Token.word.injEq] at same
          exact absurd same.1.symm secondFits.1
      | _ => simp [ItemsTree.tokens, classKeyword_ne_deleteKeyword] at same
  | assignment name mark value ending rest ih =>
      cases second with
      | assignment other otherMark otherValue otherEnding others =>
          simp only [ItemsTree.tokens, List.cons_append, List.append_assoc, List.cons.injEq,
            Token.word.injEq] at same
          simp only [ItemsTree.Fits, ← List.head?_append] at firstFits secondFits
          obtain ⟨rfl, afterName⟩ := same
          obtain ⟨rfl, afterMark⟩ := Mark.append_inj afterName
          obtain ⟨_, _, valueFits, endingFits, restFits⟩ := firstFits
          obtain ⟨_, _, otherValueFits, otherEndingFits, othersFit⟩ := secondFits
          rw [List.append_assoc] at valueFits otherValueFits
          obtain ⟨rfl, afterValue⟩ :=
            ValueTree.append_inj value otherValue afterMark valueFits otherValueFits
          obtain ⟨rfl, afterEnding⟩ := Ending.append_inj afterValue endingFits otherEndingFits
          obtain ⟨later, rfl, laterIs⟩ := ih others afterEnding restFits othersFit secondEnds
          exact ⟨later, rfl, laterIs⟩
      | nil => cases eq_nil_of_endsItem same secondEnds
      | stray => simp [ItemsTree.tokens] at same
      | deletion =>
          simp only [ItemsTree.tokens, List.cons_append, List.cons.injEq, Token.word.injEq] at same
          exact absurd same.1 firstFits.2.1
      | _ =>
          simp only [ItemsTree.tokens, List.cons_append, List.cons.injEq, Token.word.injEq] at same
          exact absurd same.1 firstFits.1

/-- A token list has at most one derivation. -/
theorem ItemsTree.Derives.unique {first second : ItemsTree} {tokens : List Token}
    (firstDerives : first.Derives tokens) (secondDerives : second.Derives tokens) :
    first = second := by
  have same : first.tokens ++ [] = second.tokens ++ [] := by
    rw [firstDerives.1, secondDerives.1]
  obtain ⟨later, rfl, laterTokens, -⟩ :=
    ItemsTree.exists_append first second same firstDerives.2 secondDerives.2 (.inl rfl)
  rw [eq_nil_of_endsItem laterTokens (.inl rfl), append_nil]

end AddonIndex.ClassConfig
