import AddonIndex.Proofs.ClassConfig.Segment

/-!
# Expansion as substitution

Passes over a whole line replace the macros that the line names, then the macros that their bodies name, and so on.
What comes out is the text of a substitution on the segments of the line: the body of a macro stands for its name,
with the macros in the body replaced in turn, and every other segment stays. Two things make the passes agree with
that. A body with an even number of quotes falls into the same segments wherever it stands, since a name has no run
beside it and the body leaves no string literal open. And each pass takes the first macro off every chain of macros
that name one another, so as many passes suffice as the longest chain has macros.
-/

namespace AddonIndex.ClassConfig

variable {macros : MacroTable} {line text other : Text} {segments others result : List Segment} {n : Nat}

/-- The body of the object-like macro of a name. -/
def objectBody? (macros : MacroTable) (name : Text) : Option Text :=
  match macros.value? name with
  | some ⟨none, body⟩ => some body
  | _ => none

/-- The body of the object-like macro that a segment names. -/
def Segment.body? (macros : MacroTable) : Segment → Option Text
  | word name => objectBody? macros name
  | _ => none

/-- A text comes from segments by complete substitution: each identifier of an object-like macro is replaced by the
text that comes from the body in the same way, and each other segment keeps its text. -/
inductive Substituted (macros : MacroTable) : List Segment → Text → Prop
  | nil : Substituted macros [] []
  | replaced {name body bodyText text : Text} {inside segments : List Segment}
      (isMacro : objectBody? macros name = some body) (divides : Divides inside body)
      (within : Substituted macros inside bodyText) (later : Substituted macros segments text) :
      Substituted macros (.word name :: segments) (bodyText ++ text)
  | kept {segment : Segment} {text : Text} {segments : List Segment} (noMacro : segment.body? macros = none)
      (later : Substituted macros segments text) : Substituted macros (segment :: segments) (segment.text ++ text)

/-- The body of one object-like macro names another one outside of string and number literals. -/
def Mentions (macros : MacroTable) (name mentioned : Text) : Prop :=
  ∃ body segments, objectBody? macros name = some body ∧ Divides segments body ∧ .word mentioned ∈ segments ∧
    (objectBody? macros mentioned).isSome

/-! ## Substitution -/

/-- Complete substitution gives one text. -/
theorem Substituted.unique (first : Substituted macros segments text) (second : Substituted macros segments other) :
    text = other := by
  induction first generalizing other with
  | nil =>
      cases second
      rfl
  | replaced isMacro divides _ _ withinIh laterIh =>
      cases second with
      | replaced isMacro' divides' within' later' =>
          cases isMacro.symm.trans isMacro'
          cases divides.unique divides'
          rw [withinIh within', laterIh later']
      | kept noMacro => cases isMacro.symm.trans noMacro
  | kept noMacro _ ih =>
      cases second with
      | replaced isMacro => cases isMacro.symm.trans noMacro
      | kept _ later' => rw [ih later']

/-- What comes from two lists of segments is what comes from the first and then what comes from the second. -/
theorem Substituted.of_append (substituted : Substituted macros (segments ++ others) text) :
    ∃ front back, text = front ++ back ∧ Substituted macros segments front ∧ Substituted macros others back := by
  induction segments generalizing text with
  | nil => exact ⟨[], text, rfl, .nil, substituted⟩
  | cons segment segments ih =>
      cases substituted with
      | @replaced _ _ bodyText _ _ _ isMacro divides within later =>
          obtain ⟨front, back, rfl, first, second⟩ := ih later
          exact ⟨bodyText ++ front, back, (List.append_assoc ..).symm, .replaced isMacro divides within first, second⟩
      | kept noMacro later =>
          obtain ⟨front, back, rfl, first, second⟩ := ih later
          exact ⟨segment.text ++ front, back, (List.append_assoc ..).symm, .kept noMacro first, second⟩

/-- Segments without macros keep their texts. -/
theorem substituted_flatMap_text (none : ∀ segment ∈ segments, segment.body? macros = none) :
    Substituted macros segments (segments.flatMap Segment.text) := by
  induction segments with
  | nil => exact .nil
  | cons segment segments ih =>
      rcases List.forall_mem_cons.1 none with ⟨noMacro, none⟩
      exact .kept noMacro (ih none)

/-! ## One pass -/

/-- One pass replaces each name of an object-like macro by the segments of the body. -/
inductive Unfolds (macros : MacroTable) : List Segment → List Segment → Prop
  | nil : Unfolds macros [] []
  | replaced {name body : Text} {inside segments result : List Segment}
      (isMacro : objectBody? macros name = some body) (divides : Divides inside body)
      (later : Unfolds macros segments result) : Unfolds macros (.word name :: segments) (inside ++ result)
  | kept {segment : Segment} {segments result : List Segment} (noMacro : segment.body? macros = none)
      (later : Unfolds macros segments result) : Unfolds macros (segment :: segments) (segment :: result)

/-- Substitution may begin with a pass. -/
theorem Unfolds.substituted (unfolds : Unfolds macros segments result) (substituted : Substituted macros result text) :
    Substituted macros segments text := by
  induction unfolds generalizing text with
  | nil => exact substituted
  | replaced isMacro divides _ ih =>
      obtain ⟨front, back, rfl, within, later⟩ := substituted.of_append
      exact .replaced isMacro divides within (ih later)
  | kept noMacro _ ih =>
      cases substituted with
      | replaced isMacro => cases isMacro.symm.trans noMacro
      | kept _ later => exact .kept noMacro (ih later)

theorem Piece.replaced_identifier (macros : MacroTable) (name : Text) :
    Piece.replaced macros (.identifier name) = (objectBody? macros name).getD name := by
  simp only [Piece.replaced, objectBody?]
  rcases macros.value? name with _ | ⟨_ | _, body⟩ <;> rfl

theorem Piece.isReplaceable_identifier (macros : MacroTable) (name : Text) :
    Piece.isReplaceable macros (.identifier name) = (objectBody? macros name).isSome := by
  simp only [Piece.isReplaceable, objectBody?]
  rcases macros.value? name with _ | ⟨_ | _, body⟩ <;> rfl

/-- What a pass makes of the pieces of a segment. -/
theorem Segment.flatMap_replaced (macros : MacroTable) (segment : Segment) :
    segment.pieces.flatMap (Piece.replaced macros) = (segment.body? macros).getD segment.text := by
  cases segment with
  | word name => simpa [pieces, body?, text] using Piece.replaced_identifier macros name
  | _ => simp [pieces, body?, List.flatMap_map, Piece.replaced]

theorem Segment.any_isReplaceable (macros : MacroTable) (segment : Segment) :
    segment.pieces.any (Piece.isReplaceable macros) = (segment.body? macros).isSome := by
  cases segment with
  | word name => simpa [pieces, body?] using Piece.isReplaceable_identifier macros name
  | _ => simp [pieces, body?, Piece.isReplaceable]

theorem Divides.expandOnce_eq (divides : Divides segments line) :
    expandOnce macros line = segments.flatMap fun segment => (segment.body? macros).getD segment.text := by
  rw [expandOnce, divides.pieces_eq, List.flatMap_assoc]
  exact List.flatMap_congr fun segment _ => segment.flatMap_replaced macros

/-- There is nothing to replace in a line precisely if none of its segments names an object-like macro. -/
theorem Divides.hasReplaceable_iff (divides : Divides segments line) :
    hasReplaceable macros line = false ↔ ∀ segment ∈ segments, segment.body? macros = none := by
  simp [hasReplaceable, divides.pieces_eq, List.any_flatMap, Segment.any_isReplaceable]

/-- A line without macros is its own substitution, and there is nothing to replace in it. -/
theorem Divides.substituted_of_forall_none (divides : Divides segments line)
    (none : ∀ segment ∈ segments, segment.body? macros = none) :
    Substituted macros segments line ∧ hasReplaceable macros line = false := by
  refine ⟨?_, divides.hasReplaceable_iff.2 none⟩
  rw [← divides.flatMap_text]
  exact substituted_flatMap_text none

theorem IsRun.not_endsRun {run rest : Text} {startsWithDigit : Bool} (isRun : IsRun startsWithDigit run) :
    ¬ EndsRun (run ++ rest) := by
  intro ends
  obtain ⟨c, more, rfl, -, identifier, -⟩ := isRun.exists_cons
  rw [ends c rfl] at identifier
  cases identifier

/-- A pass does not put a run of identifier characters before a line that begins with none. -/
theorem Divides.endsRun_expandOnce (divides : Divides segments line) (ends : EndsRun line) :
    EndsRun (expandOnce macros line) := by
  rw [divides.expandOnce_eq]
  cases divides with
  | nil => exact ends
  | word isRun => exact absurd ends isRun.not_endsRun
  | number isRun => exact absurd ends isRun.not_endsRun
  | quoted => exact endsRun_cons isIdentifierChar_quote
  | unclosed => exact endsRun_cons isIdentifierChar_quote
  | mark noIdentifier => exact endsRun_cons noIdentifier

/-- A pass over a line replaces macros in its segments, and only there, where the bodies leave no string literal
open. -/
theorem Divides.exists_unfolds (even : ∀ name body, objectBody? macros name = some body → Even (body.count '"'))
    (divides : Divides segments line) :
    ∃ result, Unfolds macros segments result ∧ Divides result (expandOnce macros line) := by
  have whole : expandOnce macros line = _ := divides.expandOnce_eq
  induction divides with
  | nil => exact ⟨[], .nil, .nil⟩
  | @word name rest _ isRun ends later ih =>
      obtain ⟨result, unfolds, divided⟩ := ih later.expandOnce_eq
      have laterEnds : EndsRun (expandOnce macros _) := later.endsRun_expandOnce ends
      rw [whole, List.flatMap_cons, ← later.expandOnce_eq]
      cases isMacro : objectBody? macros name with
      | none =>
          refine ⟨_, .kept isMacro unfolds, ?_⟩
          rw [Segment.body?, isMacro]
          exact .word isRun laterEnds divided
      | some body =>
          obtain ⟨inside, insideDivides⟩ := exists_divides body
          refine ⟨_, .replaced isMacro insideDivides unfolds, ?_⟩
          rw [Segment.body?, isMacro]
          exact insideDivides.append (insideDivides.closed_of_even (even name body isMacro)) divided laterEnds
  | number isRun ends later ih =>
      obtain ⟨result, unfolds, divided⟩ := ih later.expandOnce_eq
      have laterEnds : EndsRun (expandOnce macros _) := later.endsRun_expandOnce ends
      rw [whole, List.flatMap_cons, ← later.expandOnce_eq]
      exact ⟨_, .kept rfl unfolds, .number isRun laterEnds divided⟩
  | quoted inside later ih =>
      obtain ⟨result, unfolds, divided⟩ := ih later.expandOnce_eq
      rw [whole, List.flatMap_cons, ← later.expandOnce_eq]
      refine ⟨_, .kept rfl unfolds, ?_⟩
      simpa [Segment.body?, Segment.text] using Divides.quoted inside divided
  | unclosed inside =>
      rw [whole]
      exact ⟨_, .kept rfl .nil, by simpa [Segment.body?, Segment.text] using Divides.unclosed inside⟩
  | mark noIdentifier noQuote later ih =>
      obtain ⟨result, unfolds, divided⟩ := ih later.expandOnce_eq
      rw [whole, List.flatMap_cons, ← later.expandOnce_eq]
      exact ⟨_, .kept rfl unfolds, .mark noIdentifier noQuote divided⟩

/-! ## As many passes as macros in a chain -/

/-- No chain of macros that name one another, and whose first one the segments name, has more macros than that. -/
def ChainsWithin (macros : MacroTable) (n : Nat) (segments : List Segment) : Prop :=
  ∀ name chain, .word name ∈ segments → (objectBody? macros name).isSome →
    (name :: chain).IsChain (Mentions macros) → (name :: chain).length ≤ n

theorem ChainsWithin.forall_mem_none (within : ChainsWithin macros 0 segments) :
    ∀ segment ∈ segments, segment.body? macros = none := by
  intro segment member
  cases segment with
  | word name =>
      by_contra isMacro
      exact absurd (within name [] member (Option.isSome_iff_ne_none.2 isMacro) (.singleton name)) (by simp)
  | _ => rfl

/-- A pass takes the first macro off each chain. -/
theorem Unfolds.chainsWithin (unfolds : Unfolds macros segments result)
    (within : ChainsWithin macros (n + 1) segments) : ChainsWithin macros n result := by
  intro mentioned chain member isMacro isChain
  induction unfolds with
  | nil => cases member
  | @replaced name body inside _ _ nameIsMacro divides _ ih =>
      rcases List.mem_append.1 member with member | member
      · have mentions : Mentions macros name mentioned := ⟨body, inside, nameIsMacro, divides, member, isMacro⟩
        have longer := within name (mentioned :: chain) List.mem_cons_self (by simp [nameIsMacro])
          (List.isChain_cons_cons.2 ⟨mentions, isChain⟩)
        simpa using longer
      · exact ih (fun name chain member => within name chain (List.mem_cons_of_mem _ member)) member
  | kept noMacro _ ih =>
      rcases List.mem_cons.1 member with rfl | member
      · exact absurd isMacro (by simpa [Segment.body?] using noMacro)
      · exact ih (fun name chain member => within name chain (List.mem_cons_of_mem _ member)) member

/-- As many passes as a chain of macros can be long make the complete substitution, and leave no macro to replace. -/
theorem Divides.substituted_expandPasses
    (even : ∀ name body, objectBody? macros name = some body → Even (body.count '"'))
    (divides : Divides segments line) (within : ChainsWithin macros n segments) :
    Substituted macros segments (expandPasses macros n line) ∧
      hasReplaceable macros (expandPasses macros n line) = false := by
  induction n generalizing line segments with
  | zero => exact divides.substituted_of_forall_none within.forall_mem_none
  | succ n ih =>
      rw [expandPasses]
      split
      case isFalse nothing =>
        exact divides.substituted_of_forall_none (divides.hasReplaceable_iff.1 (Bool.eq_false_iff.2 nothing))
      case isTrue =>
        obtain ⟨result, unfolds, divided⟩ := divides.exists_unfolds even
        obtain ⟨substituted, nothing⟩ := ih divided (unfolds.chainsWithin within)
        exact ⟨unfolds.substituted substituted, nothing⟩

/-- A line in which there is nothing to replace stays as it is. -/
theorem expandPasses_of_not_hasReplaceable (nothing : hasReplaceable macros line = false) :
    expandPasses macros n line = line := by
  cases n with
  | zero => rfl
  | succ n => rw [expandPasses, nothing, if_neg Bool.false_ne_true]

/-- Expansion is complete substitution. Where no body of an object-like macro leaves a string literal open, and no
chain of macros that name one another has more than eight macros, a line expands to the text in which each identifier
of an object-like macro is replaced by the expansion of its body and everything else stays, and that text expands to
itself. -/
theorem expand_substitutes (even : ∀ name body, objectBody? macros name = some body → Even (body.count '"'))
    (chains : ∀ chain : List Text, chain.IsChain (Mentions macros) → chain.length ≤ 8) (line : Text) :
    (∃ segments, Divides segments line ∧ ∀ text, Substituted macros segments text ↔ text = expand macros line) ∧
      expand macros (expand macros line) = expand macros line := by
  obtain ⟨segments, divides⟩ := exists_divides line
  obtain ⟨substituted, nothing⟩ := divides.substituted_expandPasses even
    fun name chain _ _ isChain => chains _ isChain
  refine ⟨⟨segments, divides, fun text => ⟨fun other => other.unique substituted, ?_⟩⟩,
    expandPasses_of_not_hasReplaceable nothing⟩
  rintro rfl
  exact substituted

/-- A macro that names another one, also in a string literal and after a digit, and a function-like macro. -/
def titleMacros : MacroTable :=
  [("TITLE".toList, ⟨none, "(NAME) \"NAME\" 7NAME".toList⟩), ("NAME".toList, ⟨none, "core".toList⟩),
    ("CALL".toList, ⟨some "x".toList, "NAME".toList⟩)]

theorem mem_of_objectBody?_eq_some {name body : Text} (isMacro : objectBody? macros name = some body) :
    (name, ⟨none, body⟩) ∈ macros := by
  unfold objectBody? at isMacro
  split at isMacro
  case h_1 found =>
    cases isMacro
    obtain ⟨before, after, rfl, -⟩ := List.lookup_eq_some_iff.1 found
    exact List.mem_append_right _ List.mem_cons_self
  case h_2 => cases isMacro

theorem Divides.identifier_mem {name : Text} (divides : Divides segments line) (member : .word name ∈ segments) :
    .identifier name ∈ pieces line := by
  rw [divides.pieces_eq]
  exact List.mem_flatMap.2 ⟨_, member, List.mem_singleton_self _⟩

theorem eq_of_mentions_titleMacros {name mentioned : Text} (mentions : Mentions titleMacros name mentioned) :
    name = "TITLE".toList ∧ mentioned = "NAME".toList := by
  obtain ⟨body, segments, isMacro, divides, member, mentionedIsMacro⟩ := mentions
  have named := divides.identifier_mem member
  have inTable := mem_of_objectBody?_eq_some isMacro
  simp only [titleMacros, List.mem_cons, Prod.mk.injEq, Macro.mk.injEq, true_and, List.not_mem_nil, or_false,
    reduceCtorEq, false_and, and_false] at inTable
  rcases inTable with ⟨rfl, rfl⟩ | ⟨rfl, rfl⟩
  case inl =>
    have found : pieces "(NAME) \"NAME\" 7NAME".toList = .verbatim '(' :: .identifier "NAME".toList ::
        ") \"NAME\" 7NAME".toList.map Piece.verbatim := by decide
    simp only [found, List.mem_cons, List.mem_map, Piece.identifier.injEq, reduceCtorEq, and_false, exists_false,
      or_false, false_or] at named
    exact ⟨rfl, named⟩
  case inr =>
    have found : pieces "core".toList = [.identifier "core".toList] := by decide
    rw [found, List.mem_singleton, Piece.identifier.injEq] at named
    rw [named] at mentionedIsMacro
    cases mentionedIsMacro

/-- A name is replaced wherever it stands alone, also in the body of another macro, and nowhere else. -/
theorem expand_substitutes_titleMacros :
    (∀ name body, objectBody? titleMacros name = some body → Even (body.count '"')) ∧
    (∀ chain : List Text, chain.IsChain (Mentions titleMacros) → chain.length ≤ 8) ∧
    ∃ segments, Divides segments "TITLE = CALL(NAMES) NAME;".toList ∧ ∀ text, Substituted titleMacros segments text ↔
      text = "(core) \"NAME\" 7NAME = CALL(NAMES) core;".toList := by
  have even : ∀ name body, objectBody? titleMacros name = some body → Even (body.count '"') := by
    have all : ∀ item ∈ titleMacros, Even (item.2.body.count '"') := by decide
    exact fun name body isMacro => all _ (mem_of_objectBody?_eq_some isMacro)
  have chains : ∀ chain : List Text, chain.IsChain (Mentions titleMacros) → chain.length ≤ 8 := by
    intro chain isChain
    match chain with
    | [] | [_] | [_, _] => simp
    | first :: second :: third :: chain =>
        obtain ⟨one, isChain⟩ := List.isChain_cons_cons.1 isChain
        obtain ⟨two, -⟩ := List.isChain_cons_cons.1 isChain
        have same := (eq_of_mentions_titleMacros one).2.symm.trans (eq_of_mentions_titleMacros two).1
        exact absurd same (by decide)
  have expanded : expand titleMacros "TITLE = CALL(NAMES) NAME;".toList =
      "(core) \"NAME\" 7NAME = CALL(NAMES) core;".toList := by decide +kernel
  have substitutes := expand_substitutes even chains "TITLE = CALL(NAMES) NAME;".toList
  rw [expanded] at substitutes
  exact ⟨even, chains, substitutes.1⟩

end AddonIndex.ClassConfig
