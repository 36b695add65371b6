import AddonIndex.Proofs.ClassConfig.Rejection

/-!
# What readers look at

A reading function decides what to do by the next token, and goes on only when it takes that token.
So a reading that leaves a token, or that fails at one, has looked at nothing behind it: with other
tokens there it does the same, and leaves those.
-/

namespace AddonIndex.ClassConfig

variable {α β : Type}

/-- Whether a reading of tokens that end in `bad :: left` takes none of those, and is the same where
`other` stands behind `bad`. Nothing is said of a reading that does take some of them. -/
def Agrees (bad : Lexeme) (left other : List Lexeme)
    (first second : Except Failure (α × List Lexeme)) : Prop :=
  (∀ result front, first = .ok (result, front ++ bad :: left) →
    second = .ok (result, front ++ bad :: other)) ∧
  (∀ cause front, first = .error ⟨cause, front ++ bad :: left⟩ →
    second = .error ⟨cause, front ++ bad :: other⟩)

section Agreement

variable {bad : Lexeme} {left other : List Lexeme}

theorem agrees_ok (result : α) (front : List Lexeme) :
    Agrees bad left other (.ok (result, front ++ bad :: left))
      (.ok (result, front ++ bad :: other)) := by
  constructor
  · intro found rest same
    obtain ⟨rfl, ends⟩ := Prod.mk.inj (Except.ok.inj same)
    rw [List.append_cancel_right ends]
  · intro cause rest same
    cases same

theorem agrees_error (cause : GrammarError) (front : List Lexeme) :
    Agrees (α := α) bad left other (.error ⟨cause, front ++ bad :: left⟩)
      (.error ⟨cause, front ++ bad :: other⟩) := by
  constructor
  · intro found rest same
    cases same
  · intro found rest same
    obtain ⟨rfl, ends⟩ := Failure.mk.inj (Except.error.inj same)
    rw [List.append_cancel_right ends]

theorem not_suffix_of_append {front : List Lexeme} : ¬ front ++ bad :: left <:+ left := by
  intro ending
  have lengths := ending.length_le
  simp only [List.length_append, List.length_cons] at lengths
  omega

/-- A reading of what stands behind a token does not leave the token. -/
theorem agrees_of_leaves {first second : Except Failure (α × List Lexeme)}
    (leaves : Leaves left first) : Agrees bad left other first second := by
  constructor
  · rintro result front rfl
    exact absurd leaves not_suffix_of_append
  · rintro cause front rfl
    exact absurd leaves not_suffix_of_append

/-- Two readings agree if they do so one after the other. -/
theorem Agrees.bind {front : List Lexeme} {first second : Except Failure (α × List Lexeme)}
    {next following : α × List Lexeme → Except Failure (β × List Lexeme)}
    (agrees : Agrees bad left other first second) (leaves : Leaves (front ++ bad :: left) first)
    (leavesNext : ∀ result rest, Leaves rest (next (result, rest)))
    (onward : ∀ result rest, rest <:+ front →
      Agrees bad left other (next (result, rest ++ bad :: left))
        (following (result, rest ++ bad :: other))) :
    Agrees bad left other (first >>= next) (second >>= following) := by
  cases first with
  | error failure =>
      constructor
      · intro result rest same
        cases same
      · intro cause rest same
        have fails : failure = ⟨cause, rest ++ bad :: left⟩ := Except.error.inj same
        rw [agrees.2 cause rest (congrArg Except.error fails)]
        rfl
  | ok outcome =>
      obtain ⟨result, rest⟩ := outcome
      -- What is left at the end is also left of what the first reading leaves.
      have passes {remaining : List Lexeme} (ending : remaining ++ bad :: left <:+ rest) :
          ∃ passed, passed <:+ front ∧ rest = passed ++ bad :: left := by
        obtain ⟨passed, rfl⟩ := ending
        obtain ⟨before, whole⟩ := leaves
        refine ⟨passed ++ remaining, ⟨before, ?_⟩, (List.append_assoc _ _ _).symm⟩
        refine List.append_cancel_right (?_ : _ ++ bad :: left = _ ++ bad :: left)
        rw [← whole]
        simp
      have leavesRest := leavesNext result rest
      constructor
      · intro final remaining same
        have goesOn : next (result, rest) = .ok (final, remaining ++ bad :: left) := same
        rw [goesOn] at leavesRest
        obtain ⟨passed, isEnd, rfl⟩ := passes leavesRest
        rw [agrees.1 result passed rfl]
        exact (onward result passed isEnd).1 final remaining goesOn
      · intro cause remaining same
        have goesOn : next (result, rest) = .error ⟨cause, remaining ++ bad :: left⟩ := same
        rw [goesOn] at leavesRest
        obtain ⟨passed, isEnd, rfl⟩ := passes leavesRest
        rw [agrees.1 result passed rfl]
        exact (onward result passed isEnd).2 cause remaining goesOn

/-! ## Words, ends and marks -/

theorem agrees_readWord (what : Text) (front : List Lexeme) :
    Agrees bad left other (readWord what (front ++ bad :: left))
      (readWord what (front ++ bad :: other)) := by
  cases front with
  | nil =>
      obtain ⟨token, line⟩ := bad
      cases token with
      | word name => exact agrees_of_leaves (List.suffix_refl left)
      | _ => exact agrees_error _ []
  | cons first front =>
      obtain ⟨token, line⟩ := first
      cases token with
      | word name => exact agrees_ok name front
      | _ => exact agrees_error _ (_ :: front)

theorem agrees_readEnd (front : List Lexeme) :
    Agrees bad left other (readEnd (front ++ bad :: left)) (readEnd (front ++ bad :: other)) := by
  cases front with
  | nil =>
      simp only [List.nil_append, readEnd]
      split
      · exact agrees_of_leaves (List.suffix_refl left)
      · split
        · exact agrees_ok () []
        · exact agrees_error _ []
  | cons first front =>
      simp only [List.cons_append, readEnd]
      split
      · exact agrees_ok () front
      · split
        · exact agrees_ok () (first :: front)
        · exact agrees_error _ (first :: front)

theorem agrees_readBase (front : List Lexeme) :
    Agrees bad left other (readBase (front ++ bad :: left)) (readBase (front ++ bad :: other)) := by
  cases front with
  | nil =>
      obtain ⟨token, line⟩ := bad
      cases token with
      | colon =>
          refine agrees_of_leaves ?_
          exact (leaves_readWord _).bind fun base _ => leaves_pure (some base)
      | _ => exact agrees_ok none []
  | cons first front =>
      obtain ⟨token, line⟩ := first
      cases token with
      | colon =>
          exact (agrees_readWord baseName front).bind (leaves_readWord _)
            (fun base _ => leaves_pure (some base)) fun base rest _ => agrees_ok (some base) rest
      | _ => exact agrees_ok none (_ :: front)

theorem agrees_readBrackets (front : List Lexeme) :
    Agrees bad left other (readBrackets (front ++ bad :: left))
      (readBrackets (front ++ bad :: other)) := by
  match front with
  | [] =>
      obtain ⟨token, line⟩ := bad
      cases token with
      | openBracket =>
          refine agrees_of_leaves ?_
          unfold readBrackets
          split
          · rename_i rest same
            rw [(List.cons.inj same).2]
            exact List.suffix_cons _ _
          · rename_i rest _ same
            rw [(List.cons.inj same).2]
            exact List.suffix_refl _
          · rename_i noBracket
            exact absurd rfl (noBracket _ _)
      | _ => exact agrees_ok false []
  | [⟨token, line⟩] =>
      cases token with
      | openBracket =>
          obtain ⟨next, nextLine⟩ := bad
          cases next with
          | closeBracket => exact agrees_of_leaves (List.suffix_refl left)
          | _ => exact agrees_error _ []
      | _ => exact agrees_ok false [_]
  | ⟨token, line⟩ :: ⟨next, nextLine⟩ :: front =>
      cases token with
      | openBracket =>
          cases next with
          | closeBracket => exact agrees_ok true front
          | _ => exact agrees_error _ (_ :: front)
      | _ => exact agrees_ok false (_ :: _ :: front)

theorem agrees_readEquals (name : Text) (isArray : Bool) (front : List Lexeme) :
    Agrees bad left other (readEquals name isArray (front ++ bad :: left))
      (readEquals name isArray (front ++ bad :: other)) := by
  cases front with
  | nil =>
      simp only [List.nil_append, readEquals]
      split
      · exact agrees_of_leaves (List.suffix_refl left)
      · split
        · exact agrees_of_leaves (List.suffix_refl left)
        · exact agrees_error _ []
  | cons first front =>
      simp only [List.cons_append, readEquals]
      split
      · exact agrees_ok false front
      · split
        · exact agrees_ok true front
        · exact agrees_error _ (first :: front)

/-! ## Values -/

/-- A run is over at the first token that ends it. -/
theorem readRun_append_cons {inArray : Bool} {run : List Lexeme} {stop : Lexeme}
    (runs : ∀ lexeme ∈ run, endsRun inArray lexeme.token = false)
    (ends : endsRun inArray stop.token = true) (rest : List Lexeme) :
    readRun inArray (run ++ stop :: rest) =
      if stop.token = .openBrace then .error ⟨.openBraceInValue, stop :: rest⟩
      else if run.isEmpty then .error ⟨.missingValue, stop :: rest⟩
      else .ok (Value.ofRun (run.map Lexeme.token), stop :: rest) := by
  have taken : (run ++ stop :: rest).takeWhile (fun lexeme => !endsRun inArray lexeme.token) =
      run := by
    rw [List.takeWhile_append_of_pos (by simpa using runs), List.takeWhile_cons_of_neg (by simp [ends]),
      List.append_nil]
  have left : (run ++ stop :: rest).dropWhile (fun lexeme => !endsRun inArray lexeme.token) =
      stop :: rest := by
    rw [List.dropWhile_append_of_pos (by simpa using runs), List.dropWhile_cons_of_neg (by simp [ends])]
  simp [readRun, taken, left]

/-- A run that goes on leaves some of what follows. -/
theorem leaves_readRun_append {inArray : Bool} {run : List Lexeme}
    (runs : ∀ lexeme ∈ run, endsRun inArray lexeme.token = false) :
    Leaves left (readRun inArray (run ++ left)) := by
  have ending : (run ++ left).dropWhile (fun lexeme => !endsRun inArray lexeme.token) <:+ left := by
    rw [List.dropWhile_append_of_pos (by simpa using runs)]
    exact List.dropWhile_suffix _
  simp only [readRun]
  split
  · exact ending
  · split <;> exact ending

theorem agrees_readRun_of_ends {inArray : Bool} {run : List Lexeme} {stop : Lexeme}
    (runs : ∀ lexeme ∈ run, endsRun inArray lexeme.token = false)
    (ends : endsRun inArray stop.token = true) {rest others : List Lexeme} (front : List Lexeme)
    (first : stop :: rest = front ++ bad :: left) (second : stop :: others = front ++ bad :: other) :
    Agrees bad left other (readRun inArray (run ++ stop :: rest))
      (readRun inArray (run ++ stop :: others)) := by
  rw [readRun_append_cons runs ends, readRun_append_cons runs ends, first, second]
  split
  · exact agrees_error _ front
  · split
    · exact agrees_error _ front
    · exact agrees_ok _ front

theorem agrees_readRun (inArray : Bool) (front : List Lexeme) :
    Agrees bad left other (readRun inArray (front ++ bad :: left))
      (readRun inArray (front ++ bad :: other)) := by
  cases found : front.find? fun lexeme => endsRun inArray lexeme.token with
  | some stop =>
      obtain ⟨ends, run, more, rfl, runs⟩ := List.find?_eq_some_iff_append.1 found
      rw [List.append_assoc, List.append_assoc]
      exact agrees_readRun_of_ends (by simpa using runs) ends (stop :: more) rfl rfl
  | none =>
      have runs : ∀ lexeme ∈ front, endsRun inArray lexeme.token = false := by
        simpa using List.find?_eq_none.1 found
      cases ends : endsRun inArray bad.token with
      | true => exact agrees_readRun_of_ends runs ends [] rfl rfl
      | false =>
          have goesOn : ∀ lexeme ∈ front ++ [bad], endsRun inArray lexeme.token = false := by
            simp only [List.mem_append, List.mem_singleton]
            rintro lexeme (member | rfl)
            · exact runs lexeme member
            · exact ends
          refine agrees_of_leaves ?_
          have leaves : Leaves left (readRun inArray (front ++ [bad] ++ left)) :=
            leaves_readRun_append goesOn
          simpa using leaves

section Elements

variable {readFirst readSecond : List Lexeme → Except Failure (List Value × List Lexeme)}

theorem agrees_readElement (leaves : ∀ lexemes, Leaves lexemes (readFirst lexemes))
    (first : Lexeme) (front : List Lexeme)
    (agrees : Agrees bad left other (readFirst (front ++ bad :: left))
      (readSecond (front ++ bad :: other))) :
    Agrees bad left other (readElement readFirst first (front ++ bad :: left))
      (readElement readSecond first (front ++ bad :: other)) := by
  unfold readElement
  split
  · exact agrees.bind (leaves _) (fun items _ => leaves_pure (Value.array items))
      fun items rest _ => agrees_ok (Value.array items) rest
  · exact agrees_readRun true (first :: front)

theorem agrees_readFollowing (leaves : ∀ lexemes, Leaves lexemes (readFirst lexemes))
    (value : Value) (front : List Lexeme)
    (agrees : ∀ comma rest, front = comma :: rest → Agrees bad left other
      (readFirst (rest ++ bad :: left)) (readSecond (rest ++ bad :: other))) :
    Agrees bad left other (readFollowing readFirst value (front ++ bad :: left))
      (readFollowing readSecond value (front ++ bad :: other)) := by
  cases front with
  | nil =>
      obtain ⟨token, line⟩ := bad
      cases token with
      | comma =>
          refine agrees_of_leaves ?_
          exact (leaves _).bind fun values _ => leaves_pure (value :: values)
      | closeBrace => exact agrees_of_leaves (List.suffix_refl left)
      | _ => exact agrees_error _ []
  | cons first front =>
      obtain ⟨token, line⟩ := first
      cases token with
      | comma =>
          exact (agrees _ front rfl).bind (leaves _) (fun values _ => leaves_pure (value :: values))
            fun values rest _ => agrees_ok (value :: values) rest
      | closeBrace => exact agrees_ok [value] front
      | _ => exact agrees_error _ (_ :: front)

end Elements

/-- Of two bounds only the second has to be large enough, since a reading that reaches its bound
leaves nothing. -/
theorem agrees_readArrayItems {bound larger : Nat} (front : List Lexeme)
    (enough : (front ++ bad :: other).length ≤ larger) :
    Agrees bad left other (readArrayItems bound (front ++ bad :: left))
      (readArrayItems larger (front ++ bad :: other)) := by
  induction bound generalizing larger front with
  | zero => exact agrees_of_leaves List.nil_suffix
  | succ bound ih =>
      obtain ⟨less, rfl⟩ : ∃ less, larger = less + 1 := by
        refine Nat.exists_eq_add_one_of_ne_zero ?_
        rintro rfl
        simp at enough
      cases front with
      | nil =>
          simp only [List.nil_append, readArrayItems]
          split
          · exact agrees_of_leaves (List.suffix_refl left)
          · by_cases opens : bad.token = .openBrace
            · refine agrees_of_leaves (Leaves.bind ?_ fun value rest =>
                leaves_readFollowing (fun _ => leaves_readArrayItems bound) value)
              rw [readElement, if_pos opens]
              exact (leaves_readArrayItems bound).bind fun items _ => leaves_pure (Value.array items)
            · rw [readElement, readElement, if_neg opens, if_neg opens]
              refine (agrees_readRun true []).bind (leaves_readRun true) ?_ ?_
              · exact fun value rest => leaves_readFollowing (fun _ => leaves_readArrayItems bound) value
              · intro value rest isEnd
                obtain rfl := List.suffix_nil.1 isEnd
                exact agrees_readFollowing (fun _ => leaves_readArrayItems bound) value [] nofun
      | cons first front =>
          simp only [List.cons_append, readArrayItems]
          split
          · exact agrees_ok [] front
          · have fewer : (front ++ bad :: other).length ≤ less := Nat.le_of_succ_le_succ enough
            have leaves : Leaves (first :: front ++ bad :: left)
                (readElement (readArrayItems bound) first (front ++ bad :: left)) :=
              leaves_readElement (fun _ => leaves_readArrayItems bound) first
            refine (agrees_readElement (fun _ => leaves_readArrayItems bound) first front
              (ih front fewer)).bind leaves ?_ ?_
            · exact fun value rest => leaves_readFollowing (fun _ => leaves_readArrayItems bound) value
            · intro value rest isEnd
              refine agrees_readFollowing (fun _ => leaves_readArrayItems bound) value rest ?_
              rintro comma rest rfl
              refine ih rest ?_
              have lengths := isEnd.length_le
              simp only [List.length_append, List.length_cons] at fewer lengths ⊢
              omega

theorem readValue_of_ne {first : Lexeme} {rest : List Lexeme} (noBrace : first.token ≠ .openBrace) :
    readValue (first :: rest) = readRun false (first :: rest) := by
  unfold readValue
  split
  · rename_i same
    exact absurd (congrArg Lexeme.token (List.cons.inj same).1) noBrace
  · rfl

theorem agrees_readValue (front : List Lexeme) :
    Agrees bad left other (readValue (front ++ bad :: left))
      (readValue (front ++ bad :: other)) := by
  cases front with
  | nil =>
      by_cases opens : bad.token = .openBrace
      · obtain ⟨_, line⟩ := bad
        cases opens
        refine agrees_of_leaves ?_
        exact (leaves_readArrayItems _).bind fun items _ => leaves_pure (Value.array items)
      · rw [List.nil_append, List.nil_append, readValue_of_ne opens, readValue_of_ne opens]
        exact agrees_readRun false []
  | cons first front =>
      by_cases opens : first.token = .openBrace
      · obtain ⟨_, line⟩ := first
        cases opens
        exact (agrees_readArrayItems front (Nat.le_refl _)).bind (leaves_readArrayItems _)
          (fun items _ => leaves_pure (Value.array items)) fun items rest _ =>
            agrees_ok (Value.array items) rest
      · rw [List.cons_append, List.cons_append, readValue_of_ne opens, readValue_of_ne opens]
        exact agrees_readRun false (first :: front)

/-! ## Items -/

theorem agrees_readAssignment (front : List Lexeme) :
    Agrees bad left other (readAssignment (front ++ bad :: left))
      (readAssignment (front ++ bad :: other)) := by
  unfold readAssignment
  refine (agrees_readWord propertyName front).bind (leaves_readWord _)
    (fun name _ => leaves_readBrackets.bind fun isArray _ =>
      (leaves_readEquals name isArray).bind fun appends _ => leaves_readValue.bind fun value _ =>
        leaves_readEnd.bind fun _ _ => leaves_pure _) fun name front _ => ?_
  refine (agrees_readBrackets front).bind leaves_readBrackets
    (fun isArray _ => (leaves_readEquals name isArray).bind fun appends _ =>
      leaves_readValue.bind fun value _ => leaves_readEnd.bind fun _ _ => leaves_pure _)
    fun isArray front _ => ?_
  refine (agrees_readEquals name isArray front).bind (leaves_readEquals name isArray)
    (fun appends _ => leaves_readValue.bind fun value _ =>
      leaves_readEnd.bind fun _ _ => leaves_pure _) fun appends front _ => ?_
  refine (agrees_readValue front).bind leaves_readValue
    (fun value _ => leaves_readEnd.bind fun _ _ => leaves_pure _) fun value front _ => ?_
  exact (agrees_readEnd front).bind leaves_readEnd (fun _ _ => leaves_pure _)
    fun _ front _ => agrees_ok _ front

theorem agrees_readDeletion (front : List Lexeme) :
    Agrees bad left other (readDeletion (front ++ bad :: left))
      (readDeletion (front ++ bad :: other)) :=
  (agrees_readWord className front).bind (leaves_readWord _) (fun _ _ => leaves_readEnd)
    fun _ front _ => agrees_readEnd front

end Agreement

/-- Read the contents of a class in braces, if there are any. -/
def readContents (bound : Nat) : List Lexeme → Except Failure (Body × List Lexeme)
  | ⟨.openBrace, _⟩ :: contents => do
      let (inner, afterContents) ← readItems bound true contents
      pure (inner, afterContents.drop 1)
  | lexemes => pure ({}, lexemes)

/-- Read a class with its end, after its keyword. -/
def readClass (bound : Nat) (lexemes : List Lexeme) : Except Failure (ConfigClass × List Lexeme) := do
  let (name, afterName) ← readWord className lexemes
  let (base, afterBase) ← readBase afterName
  let (inner, afterClass) ← readContents bound afterBase
  let (_, next) ← readEnd afterClass
  return ({ name, base, classes := inner.classes, assignments := inner.assignments }, next)

/-- A class is read in front of the items that follow it. -/
theorem readItems_class {bound : Nat} {inClass : Bool} {first : Lexeme} {rest : List Lexeme}
    (keyword : first.token = .word classKeyword) :
    readItems (bound + 1) inClass (first :: rest) = do
      let (found, next) ← readClass bound rest
      let (others, after) ← readItems bound inClass next
      return (others.addClass found, after) := by
  rw [readItems, keyword]
  simp only [if_true, readClass, bind_assoc, pure_bind]
  refine bind_congr fun named => bind_congr fun based => ?_
  congr 1
  split
  · rename_i opens
    rw [opens]
    rfl
  · rename_i noBrace
    unfold readContents
    split
    · rename_i opens
      exact absurd opens (noBrace _ _)
    · rfl

theorem readItems_deletion {bound : Nat} {inClass : Bool} {first : Lexeme} {rest : List Lexeme}
    (keyword : first.token = .word deleteKeyword) :
    readItems (bound + 1) inClass (first :: rest) =
      (readDeletion rest >>= fun (_, next) => readItems bound inClass next) := by
  rw [readItems, keyword]
  rfl

theorem readItems_assignment {bound : Nat} {inClass : Bool} {first : Lexeme} {rest : List Lexeme}
    {name : Text} (isWord : first.token = .word name) (notClass : name ≠ classKeyword)
    (notDeletion : name ≠ deleteKeyword) :
    readItems (bound + 1) inClass (first :: rest) = do
      let (found, next) ← readAssignment (first :: rest)
      let (others, after) ← readItems bound inClass next
      return (others.addAssignment found, after) := by
  rw [readItems, isWord]
  simp only [if_neg notClass, if_neg notDeletion]

theorem readContents_of_ne {bound : Nat} {first : Lexeme} {rest : List Lexeme}
    (noBrace : first.token ≠ .openBrace) :
    readContents bound (first :: rest) = .ok ({}, first :: rest) := by
  unfold readContents
  split
  · rename_i same
    exact absurd (congrArg Lexeme.token (List.cons.inj same).1) noBrace
  · rfl

theorem leaves_readContents {bound : Nat} {lexemes : List Lexeme} :
    Leaves lexemes (readContents bound lexemes) := by
  unfold readContents
  split
  · refine Leaves.mono ?_ (List.suffix_cons _ _)
    exact (leaves_readItems bound true).bind fun inner rest =>
      (leaves_pure inner).mono (List.drop_suffix 1 rest)
  · exact List.suffix_refl _

theorem leaves_readClass {bound : Nat} {lexemes : List Lexeme} :
    Leaves lexemes (readClass bound lexemes) :=
  (leaves_readWord _).bind fun _ _ => leaves_readBase.bind fun _ _ => leaves_readContents.bind
    fun _ _ => leaves_readEnd.bind fun _ _ => leaves_pure _

/-- The name of an assignment is taken, whatever comes after it. -/
theorem leaves_readAssignment_of_word {first : Lexeme} {name : Text} {rest : List Lexeme}
    (isWord : first.token = .word name) : Leaves rest (readAssignment (first :: rest)) := by
  have leavesName : Leaves rest (readWord propertyName (first :: rest)) := by
    obtain ⟨_, line⟩ := first
    cases isWord
    exact List.suffix_refl rest
  exact leavesName.bind fun name _ => leaves_readBrackets.bind fun isArray _ =>
    (leaves_readEquals name isArray).bind fun appends _ => leaves_readValue.bind fun value _ =>
      leaves_readEnd.bind fun _ _ => leaves_pure _

section Agreement

variable {bad : Lexeme} {left other : List Lexeme}

theorem agrees_readContents {bound larger : Nat} (front : List Lexeme)
    (agrees : ∀ contents, contents <:+ front → Agrees bad left other
      (readItems bound true (contents ++ bad :: left))
      (readItems larger true (contents ++ bad :: other))) :
    Agrees bad left other (readContents bound (front ++ bad :: left))
      (readContents larger (front ++ bad :: other)) := by
  cases front with
  | nil =>
      by_cases opens : bad.token = .openBrace
      · obtain ⟨_, line⟩ := bad
        cases opens
        refine agrees_of_leaves ?_
        exact (leaves_readItems bound true).bind fun inner rest =>
          (leaves_pure inner).mono (List.drop_suffix 1 rest)
      · rw [List.nil_append, List.nil_append, readContents_of_ne opens, readContents_of_ne opens]
        exact agrees_ok ({} : Body) []
  | cons first front =>
      by_cases opens : first.token = .openBrace
      · obtain ⟨_, line⟩ := first
        cases opens
        refine (agrees front (List.suffix_cons _ _)).bind (leaves_readItems bound true)
          (fun inner rest => (leaves_pure inner).mono (List.drop_suffix 1 rest))
          fun inner rest _ => ?_
        cases rest with
        | nil => exact agrees_of_leaves (leaves_pure inner)
        | cons close rest => exact agrees_ok inner rest
      · rw [List.cons_append, List.cons_append, readContents_of_ne opens, readContents_of_ne opens]
        exact agrees_ok ({} : Body) (first :: front)

theorem agrees_readClass {bound larger : Nat} (front : List Lexeme)
    (agrees : ∀ contents, contents <:+ front → Agrees bad left other
      (readItems bound true (contents ++ bad :: left))
      (readItems larger true (contents ++ bad :: other))) :
    Agrees bad left other (readClass bound (front ++ bad :: left))
      (readClass larger (front ++ bad :: other)) := by
  unfold readClass
  refine (agrees_readWord className front).bind (leaves_readWord _)
    (fun _ _ => leaves_readBase.bind fun _ _ => leaves_readContents.bind
      fun _ _ => leaves_readEnd.bind fun _ _ => leaves_pure _) fun name afterName isEnd => ?_
  refine (agrees_readBase afterName).bind leaves_readBase
    (fun _ _ => leaves_readContents.bind fun _ _ => leaves_readEnd.bind fun _ _ => leaves_pure _)
    fun base afterBase isEndToo => ?_
  have agreesHere (contents : List Lexeme) (isInside : contents <:+ afterBase) :=
    agrees contents (isInside.trans (isEndToo.trans isEnd))
  refine (agrees_readContents afterBase agreesHere).bind leaves_readContents
    (fun _ _ => leaves_readEnd.bind fun _ _ => leaves_pure _) fun inner afterClass _ => ?_
  exact (agrees_readEnd afterClass).bind leaves_readEnd (fun _ _ => leaves_pure _)
    fun _ rest _ => agrees_ok _ rest

/-- What is read of a text up to a token does not depend on what comes after it. -/
theorem agrees_readItems {bound larger : Nat} (inClass : Bool) (front : List Lexeme)
    (enough : (front ++ bad :: other).length ≤ larger) :
    Agrees bad left other (readItems bound inClass (front ++ bad :: left))
      (readItems larger inClass (front ++ bad :: other)) := by
  induction bound generalizing larger inClass front with
  | zero =>
      refine agrees_of_leaves ?_
      cases inClass <;> exact List.nil_suffix
  | succ bound ih =>
      obtain ⟨less, rfl⟩ : ∃ less, larger = less + 1 := by
        refine Nat.exists_eq_add_one_of_ne_zero ?_
        rintro rfl
        simp at enough
      have leavesOthers {γ : Type} (add : γ → Body → Body) (found : γ) (rest : List Lexeme) :
          Leaves rest (do
            let (others, after) ← readItems bound inClass rest
            return (add found others, after)) :=
        (leaves_readItems bound inClass).bind fun _ _ => leaves_pure _
      cases front with
      | nil =>
          simp only [List.nil_append]
          cases kind : bad.token with
          | closeBrace =>
              rw [readItems, readItems, kind]
              cases inClass with
              | true => exact agrees_ok ({} : Body) []
              | false => exact agrees_error _ []
          | semicolon =>
              rw [readItems, readItems, kind]
              exact agrees_of_leaves (leaves_readItems bound inClass)
          | word keyword =>
              refine agrees_of_leaves ?_
              by_cases isClass : keyword = classKeyword
              · rw [readItems_class (isClass ▸ kind)]
                exact leaves_readClass.bind (leavesOthers Body.addClass)
              · by_cases isDeletion : keyword = deleteKeyword
                · rw [readItems_deletion (isDeletion ▸ kind)]
                  exact leaves_readDeletion.bind fun _ _ => leaves_readItems bound inClass
                · rw [readItems_assignment kind isClass isDeletion]
                  exact (leaves_readAssignment_of_word kind).bind (leavesOthers Body.addAssignment)
          | _ =>
              rw [readItems, readItems, kind]
              exact agrees_error _ []
      | cons first front =>
          have fewer : (front ++ bad :: other).length ≤ less := Nat.le_of_succ_le_succ enough
          have agrees (contents : List Lexeme) (isEnd : contents <:+ front) (inside : Bool) :
              Agrees bad left other (readItems bound inside (contents ++ bad :: left))
                (readItems less inside (contents ++ bad :: other)) := by
            refine ih inside contents ?_
            have lengths := isEnd.length_le
            simp only [List.length_append] at fewer ⊢
            omega
          have agreesOthers {γ : Type} (add : γ → Body → Body) (found : γ) (rest : List Lexeme)
              (isEnd : rest <:+ front) : Agrees bad left other
                (do let (others, after) ← readItems bound inClass (rest ++ bad :: left)
                    return (add found others, after))
                (do let (others, after) ← readItems less inClass (rest ++ bad :: other)
                    return (add found others, after)) :=
            (agrees rest isEnd inClass).bind (leaves_readItems bound inClass)
              (fun _ _ => leaves_pure _) fun _ after _ => agrees_ok _ after
          simp only [List.cons_append]
          cases kind : first.token with
          | closeBrace =>
              rw [readItems, readItems, kind]
              cases inClass with
              | true => exact agrees_ok ({} : Body) (first :: front)
              | false => exact agrees_error _ (first :: front)
          | semicolon =>
              rw [readItems, readItems, kind]
              exact agrees front (List.suffix_refl front) inClass
          | word keyword =>
              by_cases isClass : keyword = classKeyword
              · rw [readItems_class (isClass ▸ kind), readItems_class (isClass ▸ kind)]
                exact (agrees_readClass front fun contents isEnd => agrees contents isEnd true).bind
                  leaves_readClass (leavesOthers Body.addClass) (agreesOthers Body.addClass)
              · by_cases isDeletion : keyword = deleteKeyword
                · rw [readItems_deletion (isDeletion ▸ kind), readItems_deletion (isDeletion ▸ kind)]
                  exact (agrees_readDeletion front).bind leaves_readDeletion
                    (fun _ _ => leaves_readItems bound inClass)
                    fun _ rest isEnd => agrees rest isEnd inClass
                · rw [readItems_assignment kind isClass isDeletion,
                    readItems_assignment kind isClass isDeletion]
                  exact (agrees_readAssignment (first :: front)).bind
                    (leaves_readAssignment_of_word kind)
                    (leavesOthers Body.addAssignment) (agreesOthers Body.addAssignment)
          | _ =>
              rw [readItems, readItems, kind]
              exact agrees_error _ (first :: front)

end Agreement

end AddonIndex.ClassConfig
