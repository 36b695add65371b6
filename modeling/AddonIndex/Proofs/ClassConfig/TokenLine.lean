import AddonIndex.ClassConfig.Scan

/-!
# The line of a token

The scanner goes through a text from left to right and counts the line feeds that
it passes, between tokens and inside of them. So it is at any time on the line on
which the rest of the text begins, and a token has the line of its first character.
-/

namespace AddonIndex.ClassConfig

/-- The way of the scanner from a text that begins on one line to a rest of it that begins on
another, with the tokens that are read on the way. -/
inductive Passes : (line : Nat) → Text → List Lexeme → (next : Nat) → Text → Prop
  | refl (line : Nat) (text : Text) : Passes line text [] line text
  | lineFeed {line next : Nat} {text rest : Text} {lexemes : List Lexeme} :
      Passes (line + 1) text lexemes next rest → Passes line ('\n' :: text) lexemes next rest
  | blank {line next : Nat} {c : Char} {text rest : Text} {lexemes : List Lexeme} :
      c ≠ '\n' → isBlank c → Passes line text lexemes next rest →
      Passes line (c :: text) lexemes next rest
  | token {line next : Nat} {c : Char} {text after rest : Text} {token : Token}
      {lexemes : List Lexeme} :
      isBlank c = false → readToken? c text = some (token, after) →
      Passes (line + token.lineFeeds) after lexemes next rest →
      Passes line (c :: text) (⟨token, line⟩ :: lexemes) next rest

theorem ne_lineFeed_of_isBlank_eq_false {c : Char} (visible : isBlank c = false) : c ≠ '\n' := by
  rintro rfl
  cases visible

/-! ## The text of a token -/

/-- The text of a string literal and its quotes have as many line feeds as the string. -/
theorem count_of_splitString? {text content after : Text}
    (ends : splitString? text = some (content, after)) :
    ∃ inside, text = inside ++ after ∧ inside.count '\n' = content.count '\n' := by
  fun_induction splitString? text generalizing content after with
  | case1 => cases ends
  | case2 =>
      cases ends
      exact ⟨['"'], rfl, rfl⟩
  | case3 rest ih =>
      obtain ⟨⟨inner, tail⟩, found, same⟩ := Option.map_eq_some_iff.1 ends
      cases same
      obtain ⟨inside, rfl, count⟩ := ih found
      exact ⟨'"' :: '"' :: inside, rfl, by simp [count]⟩
  | case4 rest =>
      cases ends
      exact ⟨['"'], rfl, rfl⟩
  | case5 c rest _ _ _ ih =>
      obtain ⟨⟨inner, tail⟩, found, same⟩ := Option.map_eq_some_iff.1 ends
      cases same
      obtain ⟨inside, rfl, count⟩ := ih found
      exact ⟨c :: inside, rfl, by simp [List.count_cons, count]⟩

/-- A word goes on with nothing but characters of words and signs. -/
theorem notMem_splitWord {other : Char} (noWord : isWordChar other = false) (noSign : isSign other = false)
    (numeric : Bool) (before : Char) (text : Text) : other ∉ (splitWord numeric before text).1 := by
  fun_induction splitWord numeric before text with
  | case1 => exact List.not_mem_nil
  | case2 before c rest inWord word after split ih =>
      rw [split] at ih
      intro found
      rcases List.mem_cons.1 found with rfl | later
      · simp [noWord, noSign] at inWord
      · exact ih later
  | case3 => exact List.not_mem_nil

/-- No word goes over the end of a line. -/
theorem lineFeed_not_mem_splitWord (numeric : Bool) (before : Char) (text : Text) :
    '\n' ∉ (splitWord numeric before text).1 :=
  notMem_splitWord (by decide) (by decide) numeric before text

theorem lineFeeds_classifyWord (word : Text) : (classifyWord word).lineFeeds = 0 := by
  unfold classifyWord
  repeat' split
  all_goals rfl

/-- The text of a token has as many line feeds as are counted for the token. -/
theorem count_of_readToken? {c : Char} {text after : Text} {token : Token}
    (reads : readToken? c text = some (token, after)) :
    ∃ inside, text = inside ++ after ∧ inside.count '\n' = token.lineFeeds := by
  unfold readToken? at reads
  split at reads
  case h_9 =>
    obtain ⟨⟨content, tail⟩, ends, same⟩ := Option.map_eq_some_iff.1 reads
    cases same
    exact count_of_splitString? ends
  case h_10 =>
    split at reads
    · rename_i sum
      cases reads
      obtain ⟨tail, rfl⟩ := List.head?_eq_some_iff.1 sum.2
      exact ⟨['='], rfl, rfl⟩
    · split at reads
      · cases reads
        refine ⟨_, (splitWord_append _ _ _).symm, ?_⟩
        rw [lineFeeds_classifyWord]
        exact List.count_eq_zero.2 (lineFeed_not_mem_splitWord _ _ _)
      · cases reads
        exact ⟨[], rfl, rfl⟩
  all_goals
    cases reads
    exact ⟨[], rfl, rfl⟩

/-- Only a string literal is not read, if it does not end. -/
theorem readToken?_eq_none {c : Char} {text : Text} (reads : readToken? c text = none) :
    c = '"' ∧ splitString? text = none := by
  unfold readToken? at reads
  split at reads
  case h_9 => exact ⟨rfl, Option.map_eq_none_iff.1 reads⟩
  case h_10 =>
    split at reads
    · cases reads
    · split at reads <;> cases reads
  all_goals cases reads

/-! ## The way of the scanner -/

/-- The scanner counts the line feeds that it passes. -/
theorem Passes.eq_add_count {line next : Nat} {text rest : Text} {lexemes : List Lexeme}
    (passes : Passes line text lexemes next rest) :
    ∃ before, text = before ++ rest ∧ next = line + before.count '\n' := by
  induction passes with
  | refl line text => exact ⟨[], rfl, rfl⟩
  | lineFeed passes ih =>
      obtain ⟨before, rfl, rfl⟩ := ih
      exact ⟨'\n' :: before, rfl, by rw [List.count_cons_self]; omega⟩
  | blank ordinary blank passes ih =>
      obtain ⟨before, rfl, rfl⟩ := ih
      exact ⟨_ :: before, rfl, by rw [List.count_cons_of_ne ordinary]⟩
  | token visible reads passes ih =>
      obtain ⟨before, rfl, rfl⟩ := ih
      obtain ⟨inside, rfl, count⟩ := count_of_readToken? reads
      refine ⟨_ :: (inside ++ before), by rw [List.cons_append, List.append_assoc], ?_⟩
      rw [List.count_cons_of_ne (ne_lineFeed_of_isBlank_eq_false visible),
        List.count_append, count]
      omega

/-- The tokens of a text are those on the way through it. -/
theorem passes_of_scanFrom_eq_ok {line : Nat} {text : Text} {lexemes : List Lexeme}
    (scans : scanFrom line text = .ok lexemes) : ∃ next, Passes line text lexemes next [] := by
  fun_induction scanFrom line text generalizing lexemes with
  | case1 line =>
      cases scans
      exact ⟨line, .refl line []⟩
  | case2 line rest ih =>
      obtain ⟨next, passes⟩ := ih scans
      exact ⟨next, .lineFeed passes⟩
  | case3 line c rest ordinary blank ih =>
      obtain ⟨next, passes⟩ := ih scans
      exact ⟨next, .blank ordinary blank passes⟩
  | case4 => cases scans
  | case5 => cases scans
  | case6 line c rest _ visible token after reads following _ ih =>
      cases scans
      obtain ⟨next, passes⟩ := ih ‹_›
      exact ⟨next, .token (Bool.not_eq_true _ ▸ visible) reads passes⟩

/-- A text that cannot be scanned has a string literal that does not end, and the way to it leads
to the line of the error. -/
theorem passes_of_scanFrom_eq_error {line next : Nat} {text : Text}
    (fails : scanFrom line text = .error next) :
    ∃ passed after, Passes line text passed next ('"' :: after) ∧ splitString? after = none := by
  fun_induction scanFrom line text with
  | case1 => cases fails
  | case2 line rest ih =>
      obtain ⟨passed, after, passes, unended⟩ := ih fails
      exact ⟨passed, after, .lineFeed passes, unended⟩
  | case3 line c rest ordinary blank ih =>
      obtain ⟨passed, after, passes, unended⟩ := ih fails
      exact ⟨passed, after, .blank ordinary blank passes, unended⟩
  | case4 line c rest _ _ none =>
      cases fails
      obtain ⟨rfl, unended⟩ := readToken?_eq_none none
      exact ⟨[], rest, .refl _ _, unended⟩
  | case5 line c rest _ visible token after reads failure _ ih =>
      cases fails
      obtain ⟨passed, last, passes, unended⟩ := ih ‹_›
      exact ⟨_, last, .token (Bool.not_eq_true _ ▸ visible) reads passes, unended⟩
  | case6 => cases fails

/-- The way to a token leads to the line of the token, and the way on from there begins with it. -/
theorem Passes.exists_of_append_cons {line next : Nat} {text rest : Text}
    {passed left : List Lexeme} {lexeme : Lexeme}
    (passes : Passes line text (passed ++ lexeme :: left) next rest) :
    ∃ c after, isBlank c = false ∧ Passes line text passed lexeme.line (c :: after) ∧
      Passes lexeme.line (c :: after) (lexeme :: left) next rest := by
  generalize whole : passed ++ lexeme :: left = lexemes at passes
  induction passes generalizing passed with
  | refl => simp at whole
  | lineFeed _ ih =>
      obtain ⟨c, after, visible, before, rest⟩ := ih whole
      exact ⟨c, after, visible, .lineFeed before, rest⟩
  | blank ordinary blank _ ih =>
      obtain ⟨c, after, visible, before, rest⟩ := ih whole
      exact ⟨c, after, visible, .blank ordinary blank before, rest⟩
  | token visible reads passes ih =>
      cases passed with
      | nil =>
          obtain ⟨rfl, rfl⟩ := List.cons.inj whole
          exact ⟨_, _, visible, .refl _ _, .token visible reads passes⟩
      | cons first passed =>
          obtain ⟨rfl, others⟩ := List.cons.inj whole
          obtain ⟨c, after, visibleThere, before, rest⟩ := ih others
          exact ⟨c, after, visibleThere, .token visible reads before, rest⟩

end AddonIndex.ClassConfig
