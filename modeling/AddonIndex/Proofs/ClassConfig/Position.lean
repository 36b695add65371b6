import AddonIndex.Proofs.ClassConfig.Grammar

/-!
# Positions of items

An item stands behind complete items, either in the whole text or in a class that
is still open there, and the class stands in the same way. Where the tokens before
an assignment are those of such a position, every derivation of the whole token
list has the assignment there, whatever follows it.
-/

namespace AddonIndex.ClassConfig

/-! ## Items in front of others -/

/-- What stands in one body, and then what stands in another. -/
def Body.append (first later : Body) : Body :=
  { classes := first.classes ++ later.classes, assignments := first.assignments ++ later.assignments }

theorem Body.addClass_append (added : ConfigClass) (first later : Body) :
    (first.addClass added).append later = (first.append later).addClass added := rfl

theorem Body.addAssignment_append (added : Assignment) (first later : Body) :
    (first.addAssignment added).append later = (first.append later).addAssignment added := rfl

theorem Body.append_assoc (first second third : Body) :
    (first.append second).append third = first.append (second.append third) := by
  simp [append]

namespace ItemsTree

theorem tokens_append (first later : ItemsTree) :
    (first.append later).tokens = first.tokens ++ later.tokens := by
  induction first <;> simp [append, tokens, *]

theorem body_append (first later : ItemsTree) :
    (first.append later).body = first.body.append later.body := by
  induction first <;> simp [append, body, Body.addClass_append, Body.addAssignment_append, *]
  rfl

/-- Items fit in front of others where the first token of those comes next. -/
theorem fits_append_iff {first later : ItemsTree} {next : Option Token} :
    (first.append later).Fits next ↔
      first.Fits (later.tokens.head?.or next) ∧ later.Fits next := by
  induction first <;>
    simp [append, Fits, tokens_append, Option.or_assoc, and_assoc, *]

end ItemsTree

/-! ## Positions -/

/-- The items before an item: in the whole text, or in the class that is open there and before
that class. -/
inductive Position
  | outermost (earlier : ItemsTree)
  | inside (earlier : ItemsTree) (name : Text) (base : Option Text) (position : Position)

namespace Position

/-- The tokens before a position. -/
def tokens : Position → List Token
  | outermost earlier => earlier.tokens
  | inside earlier name base position =>
      earlier.tokens ++ .word classKeyword :: .word name ::
        (baseTokens base ++ .openBrace :: position.tokens)

/-- Whether the items before a position are complete where a token comes next. -/
def Fits (next : Token) : Position → Prop
  | outermost earlier => earlier.Fits (some next)
  | inside earlier _ _ position => earlier.Fits (some (.word classKeyword)) ∧ position.Fits next

/-- Whether a body has an assignment at a position: after what the items there stand for, in the
class that is open there. -/
def Holds (assignment : Assignment) : Position → Body → Prop
  | outermost earlier, body =>
      ∃ later : Body, body = earlier.body.append (later.addAssignment assignment)
  | inside earlier name base position, body =>
      ∃ contents later : Body, position.Holds assignment contents ∧
        body = earlier.body.append (later.addClass
          { name, base, classes := contents.classes, assignments := contents.assignments })

/-- Items whose tokens begin with a class that is opened begin with that class. -/
theorem exists_definition {items : ItemsTree} {name : Text} {base : Option Text}
    {rest tokens : List Token}
    (same : items.tokens ++ rest =
      .word classKeyword :: .word name :: (baseTokens base ++ .openBrace :: tokens))
    (fits : items.Fits rest.head?) (ends : EndsItem rest.head?) :
    ∃ contents ending others, items = .definition name base contents ending others ∧
      contents.Fits (some .closeBrace) ∧
      contents.tokens ++ .closeBrace :: (ending.tokens ++ (others.tokens ++ rest)) = tokens := by
  cases items with
  | nil =>
      rw [show rest = _ from same] at ends
      simp [EndsItem] at ends
  | stray => simp [ItemsTree.tokens] at same
  | deletion => simp [ItemsTree.tokens, classKeyword_ne_deleteKeyword.symm] at same
  | assignment =>
      simp only [ItemsTree.tokens, List.cons_append, List.cons.injEq, Token.word.injEq] at same
      exact absurd same.1 fits.1
  | declaration other otherBase ending others =>
      simp only [ItemsTree.tokens, List.cons_append, List.append_assoc, List.cons.injEq] at same
      simp only [ItemsTree.Fits, ← List.head?_append] at fits
      obtain ⟨_, afterBase⟩ :=
        baseTokens_append_inj same.2.2 fits.1.stopsRun.ne_colon (by simp)
      exact absurd (congrArg List.head? afterBase) fits.1.stopsRun.ne_openBrace
  | definition other otherBase contents ending others =>
      simp only [ItemsTree.tokens, List.cons_append, List.append_assoc, List.cons.injEq,
        Token.word.injEq, true_and] at same
      obtain ⟨rfl, afterName⟩ := same
      obtain ⟨rfl, afterBase⟩ := baseTokens_append_inj afterName (by simp) (by simp)
      exact ⟨contents, ending, others, rfl, fits.1, (List.cons.inj afterBase).2⟩

/-- An assignment at a position is there in the body of every derivation that begins with both. -/
theorem holds_of_tokens {position : Position} {items : ItemsTree} {name : Text} {mark : Mark}
    {value : ValueTree} {rest later : List Token} (notClass : name ≠ classKeyword)
    (notDeletion : name ≠ deleteKeyword) (valueFits : value.Fits false (some .semicolon))
    (complete : position.Fits (.word name)) (fits : items.Fits rest.head?)
    (ends : EndsItem rest.head?)
    (same : items.tokens ++ rest =
      position.tokens ++ .word name :: (mark.tokens ++ (value.tokens ++ .semicolon :: later))) :
    position.Holds { name, isArray := mark.isArray, appends := mark.appends, value := value.value }
      items.body := by
  induction position generalizing items rest with
  | outermost earlier =>
      let item : ItemsTree := .assignment name mark value .semicolon .nil
      have itemFits : item.Fits later.head? :=
        ⟨notClass, notDeletion, valueFits, trivial, trivial⟩
      have begins : (earlier.append item).tokens ++ later = items.tokens ++ rest := by
        rw [same, ItemsTree.tokens_append]
        simp [item, ItemsTree.tokens, Ending.tokens, tokens]
      obtain ⟨others, rfl, -⟩ := ItemsTree.exists_append (earlier.append item) items begins
        (ItemsTree.fits_append_iff.2 ⟨complete, itemFits⟩) fits ends
      refine ⟨others.body, ?_⟩
      rw [ItemsTree.body_append, ItemsTree.body_append, Body.append_assoc]
      rfl
  | inside earlier outer base position ih =>
      simp only [tokens, List.append_assoc, List.cons_append] at same
      obtain ⟨fromClass, rfl, classTokens, classFits⟩ :=
        ItemsTree.exists_append earlier items same.symm complete.1 fits ends
      obtain ⟨contents, ending, others, rfl, contentsFit, contentsTokens⟩ :=
        exists_definition classTokens classFits ends
      have held := ih complete.2 (show contents.Fits (Token.closeBrace :: _).head? from contentsFit)
        (.inr rfl) contentsTokens
      exact ⟨contents.body, others.body, held, ItemsTree.body_append earlier _⟩

end Position

end AddonIndex.ClassConfig
