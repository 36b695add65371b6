import Mathlib.Data.List.Chain
import Mathlib.Logic.Relation
import AddonIndex.Proofs.ClassConfig.RawText

/-!
# Semicolons that may be left out

A semicolon says nothing directly before a closing brace, before another semicolon and at the end of
a text: without it the items are derived in the same way, with the end of one of them left out. The
closing brace of a class or an array does not end an item by itself, though. Only a comma, a
semicolon, another closing brace or the end can come after it, so a semicolon that stands before
anything else has to stay.
-/

namespace AddonIndex.ClassConfig

/-! ## Derivations with a semicolon less -/

/-- Whether a semicolon may be left out before what follows it. -/
def MayOmit (next : Option Token) : Prop := EndsItem next ∨ next = some .semicolon

theorem MayOmit.stopsRun {next : Option Token} (omits : MayOmit next) : StopsRun false next := by
  rcases omits with ends | semicolon
  · exact ends.stopsRun
  · exact .inr (.inl semicolon)

mutual

/-- Semicolons are no part of values. -/
theorem ValueTree.Fits.semicolon_notMem (value : ValueTree) {inArray : Bool} {next : Option Token}
    (fits : value.Fits inArray next) : Token.semicolon ∉ value.tokens := by
  cases value with
  | run tokens =>
      intro member
      exact (fits.2.1 _ member).2.2.1 rfl
  | array elements =>
      simpa [ValueTree.tokens] using ElementsTree.Fits.semicolon_notMem elements fits

theorem ElementsTree.Fits.semicolon_notMem (elements : ElementsTree) (fits : elements.Fits) :
    Token.semicolon ∉ elements.tokens := by
  cases elements with
  | close => simp [ElementsTree.tokens]
  | last value => simpa [ElementsTree.tokens] using ValueTree.Fits.semicolon_notMem value fits
  | more value rest =>
      simpa [ElementsTree.tokens] using
        ⟨ValueTree.Fits.semicolon_notMem value fits.1, ElementsTree.Fits.semicolon_notMem rest fits.2⟩

end

/-- A semicolon stands behind the tokens before it that are none. -/
theorem exists_of_append_eq (header : List Token) {rest front back : List Token}
    (absent : Token.semicolon ∉ header) (same : header ++ rest = front ++ .semicolon :: back) :
    ∃ inner, front = header ++ inner ∧ rest = inner ++ .semicolon :: back := by
  rcases List.append_eq_append_iff.1 same with ⟨inner, isFront, isRest⟩ | ⟨inner, isHeader, isBack⟩
  · exact ⟨inner, isFront, isRest⟩
  · cases inner with
    | nil => exact ⟨[], by simpa using isHeader.symm, isBack.symm⟩
    | cons token inner =>
        obtain ⟨rfl, -⟩ := List.cons.inj isBack
        exact absurd (isHeader ▸ List.mem_append_right front List.mem_cons_self) absent

/-- A semicolon that ends an item is left out with the end of the item, or in place of one that
follows it. Another one is left out of the items behind. -/
theorem exists_ending {ending : Ending} {rest : ItemsTree} {next : Option Token}
    {front back : List Token} (last : EndsItem next)
    (endingFits : ending.Fits (rest.tokens.head?.or next)) (restFits : rest.Fits next)
    (same : ending.tokens ++ rest.tokens = front ++ .semicolon :: back)
    (omits : MayOmit (back.head?.or next))
    (behind : ∀ inner, rest.tokens = inner ++ .semicolon :: back →
      ∃ shorter : ItemsTree, shorter.tokens = inner ++ back ∧ shorter.Fits next ∧
        shorter.body = rest.body) :
    ∃ (other : Ending) (shorter : ItemsTree), other.tokens ++ shorter.tokens = front ++ back ∧
      StopsRun false ((other.tokens ++ shorter.tokens).head?.or next) ∧
      other.Fits (shorter.tokens.head?.or next) ∧ shorter.Fits next ∧ shorter.body = rest.body := by
  cases ending with
  | semicolon =>
      cases front with
      | nil =>
          obtain rfl : rest.tokens = back := (List.cons.inj same).2
          rcases omits with ends | semicolon
          · exact ⟨.omitted, rest, rfl, ends.stopsRun, ends, restFits, rfl⟩
          · cases rest with
            | stray others => exact ⟨.semicolon, others, rfl, .inr (.inl rfl), trivial, restFits, rfl⟩
            | nil =>
                rw [show next = some .semicolon from semicolon] at last
                simp [EndsItem] at last
            | _ => simp [ItemsTree.tokens] at semicolon
      | cons token front =>
          obtain ⟨rfl, isRest⟩ := List.cons.inj same
          obtain ⟨shorter, isShorter, fits, sameBody⟩ := behind front isRest
          exact ⟨.semicolon, shorter, congrArg _ isShorter, .inr (.inl rfl), trivial, fits, sameBody⟩
  | omitted =>
      cases rest with
      | nil => simp [Ending.tokens, ItemsTree.tokens] at same
      | _ => simp [ItemsTree.tokens, Ending.Fits, EndsItem] at endingFits

theorem semicolon_notMem_baseTokens (base : Option Text) : Token.semicolon ∉ baseTokens base := by
  cases base <;> simp [baseTokens]

theorem Mark.semicolon_notMem (mark : Mark) : Token.semicolon ∉ mark.tokens := by
  cases mark <;> simp [tokens]

/-- Items stand for the same without a semicolon that may be left out. -/
theorem ItemsTree.exists_shorter {items : ItemsTree} {next : Option Token} {front back : List Token}
    (last : EndsItem next) (fits : items.Fits next) (same : items.tokens = front ++ .semicolon :: back)
    (omits : MayOmit (back.head?.or next)) :
    ∃ shorter : ItemsTree, shorter.tokens = front ++ back ∧ shorter.Fits next ∧
      shorter.body = items.body := by
  induction items generalizing next front back with
  | nil => simp [tokens] at same
  | stray rest ih =>
      cases front with
      | nil => exact ⟨rest, (List.cons.inj same).2, fits, rfl⟩
      | cons token front =>
          obtain ⟨rfl, isRest⟩ := List.cons.inj same
          obtain ⟨shorter, isShorter, shorterFits, sameBody⟩ := ih last fits isRest omits
          exact ⟨.stray shorter, congrArg _ isShorter, shorterFits, sameBody⟩
  | declaration name base ending rest ih =>
      obtain ⟨inner, rfl, isEnd⟩ := exists_of_append_eq
        (.word classKeyword :: .word name :: baseTokens base)
        (by simp [semicolon_notMem_baseTokens]) same
      obtain ⟨other, shorter, isShorter, -, endingFits, shorterFits, sameBody⟩ :=
        exists_ending last fits.1 fits.2 isEnd omits fun inner isRest => ih last fits.2 isRest omits
      refine ⟨.declaration name base other shorter, ?_, ⟨endingFits, shorterFits⟩, ?_⟩
      · simp [tokens, isShorter]
      · simp [body, sameBody]
  | definition name base contents ending rest contentsIh ih =>
      let header : List Token :=
        .word classKeyword :: .word name :: (baseTokens base ++ [.openBrace])
      have split : header ++ (contents.tokens ++ .closeBrace :: (ending.tokens ++ rest.tokens)) =
          front ++ .semicolon :: back := by
        simpa [header, tokens] using same
      obtain ⟨inner, rfl, isRest⟩ :=
        exists_of_append_eq header (by simp [header, semicolon_notMem_baseTokens]) split
      rcases List.append_eq_append_iff.1 isRest with
        ⟨afterContents, rfl, isAfter⟩ | ⟨inContents, isContents, isBack⟩
      · cases afterContents with
        | nil => cases (List.cons.inj isAfter).1
        | cons token afterContents =>
            obtain ⟨rfl, isEnd⟩ := List.cons.inj isAfter
            obtain ⟨other, shorter, isShorter, -, endingFits, shorterFits, sameBody⟩ :=
              exists_ending last fits.2.1 fits.2.2 isEnd omits
                fun inner isRest => ih last fits.2.2 isRest omits
            refine ⟨.definition name base contents other shorter, ?_,
              ⟨fits.1, endingFits, shorterFits⟩, ?_⟩
            · simp [header, tokens, isShorter]
            · simp [body, sameBody]
      · cases inContents with
        | nil => cases (List.cons.inj isBack).1
        | cons token inContents =>
            obtain ⟨rfl, rfl⟩ := List.cons.inj isBack
            have omitsInside : MayOmit (inContents.head?.or (some .closeBrace)) := by
              cases inContents <;> exact omits
            obtain ⟨shorter, isShorter, shorterFits, sameBody⟩ :=
              contentsIh (.inr rfl) fits.1 isContents omitsInside
            refine ⟨.definition name base shorter ending rest, ?_, ⟨shorterFits, fits.2⟩, ?_⟩
            · simp [header, tokens, isShorter]
            · simp [body, sameBody]
  | deletion name ending rest ih =>
      obtain ⟨inner, rfl, isEnd⟩ := exists_of_append_eq
        [.word deleteKeyword, .word name] (by simp) same
      obtain ⟨other, shorter, isShorter, -, endingFits, shorterFits, sameBody⟩ :=
        exists_ending last fits.1 fits.2 isEnd omits fun inner isRest => ih last fits.2 isRest omits
      refine ⟨.deletion name other shorter, ?_, ⟨endingFits, shorterFits⟩, sameBody⟩
      simp [tokens, isShorter]
  | assignment name mark value ending rest ih =>
      obtain ⟨notClass, notDeletion, valueFits, endingFits, restFits⟩ := fits
      let header : List Token := .word name :: (mark.tokens ++ value.tokens)
      have split : header ++ (ending.tokens ++ rest.tokens) = front ++ .semicolon :: back := by
        simpa [header, tokens] using same
      obtain ⟨inner, rfl, isEnd⟩ := exists_of_append_eq header
        (by simp [header, mark.semicolon_notMem, valueFits.semicolon_notMem]) split
      obtain ⟨other, shorter, isShorter, stops, otherFits, shorterFits, sameBody⟩ :=
        exists_ending last endingFits restFits isEnd omits fun inner isRest => ih last restFits isRest omits
      refine ⟨.assignment name mark value other shorter, ?_,
        ⟨notClass, notDeletion, valueFits.of_stopsRun stops, otherFits, shorterFits⟩, ?_⟩
      · simp [header, tokens, isShorter]
      · simp [body, sameBody]

/-! ## What comes after a closing brace -/

/-- Whether a token may come after another one, where that is a closing brace or a semicolon. -/
def MayFollow (first second : Token) : Prop :=
  (first = .closeBrace → second = .closeBrace ∨ second = .semicolon ∨ second = .comma) ∧
    (first = .semicolon → second ≠ .comma)

/-- Behind another token anything may come. -/
theorem isChain_cons_of_ne {token : Token} {rest : List Token} (noBrace : token ≠ .closeBrace)
    (noSemicolon : token ≠ .semicolon) (chain : rest.IsChain MayFollow) :
    (token :: rest).IsChain MayFollow :=
  List.isChain_cons.2 ⟨fun _ _ =>
    ⟨fun brace => absurd brace noBrace, fun semicolon => absurd semicolon noSemicolon⟩, chain⟩

theorem isChain_word (name : Text) {rest : List Token} (chain : rest.IsChain MayFollow) :
    (.word name :: rest).IsChain MayFollow :=
  isChain_cons_of_ne (by simp) (by simp) chain

theorem isChain_openBrace {rest : List Token} (chain : rest.IsChain MayFollow) :
    (.openBrace :: rest).IsChain MayFollow :=
  isChain_cons_of_ne (by simp) (by simp) chain

theorem isChain_append_of_ne {front rest : List Token}
    (plain : ∀ token ∈ front, token ≠ .closeBrace ∧ token ≠ .semicolon)
    (chain : rest.IsChain MayFollow) : (front ++ rest).IsChain MayFollow := by
  induction front with
  | nil => exact chain
  | cons token front ih =>
      rcases List.forall_mem_cons.1 plain with ⟨⟨noBrace, noSemicolon⟩, others⟩
      exact isChain_cons_of_ne noBrace noSemicolon (ih others)

/-- A closing brace comes before what stops a run. -/
theorem isChain_closeBrace {inArray : Bool} {rest : List Token}
    (stops : StopsRun inArray rest.head?) (chain : rest.IsChain MayFollow) :
    (Token.closeBrace :: rest).IsChain MayFollow := by
  refine List.isChain_cons.2 ⟨fun next isNext => ?_, chain⟩
  rw [Option.mem_def.1 isNext] at stops
  rcases stops with none | semicolon | brace | ⟨-, comma⟩
  · cases none
  · exact ⟨fun _ => .inr (.inl (Option.some.inj semicolon)), nofun⟩
  · exact ⟨fun _ => .inl (Option.some.inj brace), nofun⟩
  · exact ⟨fun _ => .inr (.inr (Option.some.inj comma)), nofun⟩

mutual

/-- The tokens of a value come one after another, and then what stops a run. -/
theorem ValueTree.Fits.isChain (value : ValueTree) {inArray : Bool} {rest : List Token}
    (fits : value.Fits inArray rest.head?) (stops : StopsRun inArray rest.head?)
    (chain : rest.IsChain MayFollow) : (value.tokens ++ rest).IsChain MayFollow := by
  cases value with
  | run tokens =>
      refine isChain_append_of_ne (fun token member => ?_) chain
      obtain ⟨-, noBrace, noSemicolon, -⟩ := fits.2.1 token member
      exact ⟨noBrace, noSemicolon⟩
  | array elements =>
      exact isChain_openBrace (ElementsTree.Fits.isChain elements fits stops chain)

theorem ElementsTree.Fits.isChain (elements : ElementsTree) {inArray : Bool} {rest : List Token}
    (fits : elements.Fits) (stops : StopsRun inArray rest.head?) (chain : rest.IsChain MayFollow) :
    (elements.tokens ++ rest).IsChain MayFollow := by
  cases elements with
  | close => exact isChain_closeBrace stops chain
  | last value =>
      rw [ElementsTree.tokens, List.append_assoc]
      exact ValueTree.Fits.isChain value fits (.inr (.inr (.inl rfl)))
        (isChain_closeBrace stops chain)
  | more value others =>
      rw [ElementsTree.tokens, List.append_assoc]
      exact ValueTree.Fits.isChain value fits.1 (.inr (.inr (.inr ⟨rfl, rfl⟩)))
        (isChain_cons_of_ne (by simp) (by simp)
          (ElementsTree.Fits.isChain others fits.2 stops chain))

end

/-- No item begins with a comma. -/
theorem ItemsTree.head?_ne_comma {items : ItemsTree} {next : Option Token} (last : EndsItem next) :
    (items.tokens ++ next.toList).head? ≠ some .comma := by
  cases items with
  | nil => rcases last with rfl | rfl <;> simp [tokens]
  | _ => simp [tokens]

theorem Ending.isChain (ending : Ending) {rest : ItemsTree} {next : Option Token}
    (last : EndsItem next) (chain : (rest.tokens ++ next.toList).IsChain MayFollow) :
    (ending.tokens ++ (rest.tokens ++ next.toList)).IsChain MayFollow := by
  cases ending with
  | omitted => exact chain
  | semicolon =>
      refine List.isChain_cons.2 ⟨fun second isSecond => ⟨nofun, fun _ => ?_⟩, chain⟩
      rintro rfl
      exact ItemsTree.head?_ne_comma last isSecond

theorem Ending.Fits.stopsRun_toList {ending : Ending} {rest : ItemsTree} {next : Option Token}
    (fits : ending.Fits (rest.tokens.head?.or next)) :
    StopsRun false (ending.tokens ++ (rest.tokens ++ next.toList)).head? := by
  refine Ending.Fits.stopsRun ?_
  rwa [List.head?_append, Option.head?_toList]

theorem isChain_header {rest : List Token} (name : Text) (base : Option Text)
    (chain : rest.IsChain MayFollow) :
    (.word classKeyword :: .word name :: (baseTokens base ++ rest)).IsChain MayFollow := by
  refine isChain_word classKeyword (isChain_word name (isChain_append_of_ne ?_ chain))
  cases base <;> simp [baseTokens]

/-- The tokens of items come one after another, and then what ends the items. -/
theorem ItemsTree.Fits.isChain {items : ItemsTree} {next : Option Token} (fits : items.Fits next)
    (last : EndsItem next) : (items.tokens ++ next.toList).IsChain MayFollow := by
  induction items generalizing next with
  | nil => rcases last with rfl | rfl <;> simp [tokens]
  | stray rest ih => exact Ending.isChain .semicolon last (ih fits last)
  | declaration name base ending rest ih =>
      simp only [tokens, List.cons_append, List.append_assoc]
      exact isChain_header name base (ending.isChain last (ih fits.2 last))
  | definition name base contents ending rest contentsIh ih =>
      simp only [tokens, List.cons_append, List.append_assoc]
      have behind := ending.isChain last (ih fits.2.2 last)
      refine isChain_header name base (isChain_openBrace ?_)
      exact List.isChain_split.2
        ⟨contentsIh fits.1 (.inr rfl), isChain_closeBrace fits.2.1.stopsRun_toList behind⟩
  | deletion name ending rest ih =>
      simp only [tokens, List.cons_append, List.append_assoc]
      exact isChain_word deleteKeyword (isChain_word name (ending.isChain last (ih fits.2 last)))
  | assignment name mark value ending rest ih =>
      obtain ⟨-, -, valueFits, endingFits, restFits⟩ := fits
      simp only [tokens, List.cons_append, List.append_assoc]
      have stops := endingFits.stopsRun_toList
      have behind := ending.isChain last (ih restFits last)
      have fitsBefore : value.Fits false (ending.tokens ++ (rest.tokens ++ next.toList)).head? :=
        valueFits.of_stopsRun stops
      refine isChain_word name (isChain_append_of_ne ?_ ?_)
      · cases mark <;> simp [Mark.tokens]
      · exact ValueTree.Fits.isChain value fitsBefore stops behind

/-! ## Texts with a semicolon less -/

variable {text rest after : Text}

theorem scans_of_scan {lexemes : List Lexeme} (scanned : scan text = .ok lexemes) :
    Scans text (lexemes.map Lexeme.token) [] := by
  simpa using scans_append_of_stopsToken scanned stopsToken_nil

/-- Where a text is scanned to its end, so is what is left of it after some of its tokens. -/
theorem Scans.exists_left {tokens passed : List Token} (whole : Scans text tokens [])
    (front : Scans text passed rest) :
    ∃ left, scan rest = .ok left ∧ tokens = passed ++ left.map Lexeme.token := by
  obtain ⟨lexemes, last, rfl, scanned⟩ := whole 1
  obtain ⟨before, next, rfl, scannedFront⟩ := front 1
  rw [scanned] at scannedFront
  cases scannedRest : scanFrom next rest with
  | error line =>
      rw [scannedRest] at scannedFront
      simp [scanFrom, Except.map] at scannedFront
  | ok more =>
      rw [scannedRest] at scannedFront
      have split : lexemes = before ++ more := by
        simpa [scanFrom, Except.map] using scannedFront
      obtain ⟨_, passes⟩ := passes_of_scanFrom_eq_ok scannedRest
      obtain ⟨left, _, isLeft, scannedLeft⟩ := (passes.append_of_stopsToken stopsToken_nil).scans 1
      refine ⟨left, ?_, ?_⟩
      · rw [List.append_nil] at scannedLeft
        simp [scan, scannedLeft, scanFrom, Except.map]
      · rw [split, List.map_append, isLeft]

/-- A text is read exactly if its tokens are derived, as what the derivation stands for. -/
theorem readText_eq_ok_iff_scans {path : Path} {body : Body} :
    readText path text = .ok body ↔
      ∃ items : ItemsTree, Scans text items.tokens [] ∧ items.Fits none ∧ items.body = body := by
  constructor
  · intro read
    obtain ⟨lexemes, scanned, readAll⟩ := scan_of_readText read
    obtain ⟨items, ⟨isTokens, fits⟩, rfl⟩ := exists_derives_of_readBody readAll
    exact ⟨items, isTokens ▸ scans_of_scan scanned, fits, rfl⟩
  · rintro ⟨items, scans, fits, rfl⟩
    exact readText_of_scans scans fits

/-- A closing brace and a semicolon are read from their own characters only. -/
theorem char_of_readToken? {c : Char} {token : Token} (reads : readToken? c text = some (token, after)) :
    (token = .closeBrace → c = '\x7d' ∧ text = after) ∧ (token = .semicolon → c = ';') := by
  unfold readToken? at reads
  split at reads
  case h_9 =>
    obtain ⟨_, _, same⟩ := Option.map_eq_some_iff.1 reads
    cases same
    simp
  case h_10 =>
    split at reads
    · cases reads
      simp
    · split at reads
      · generalize splitWord (beginsNumber c) c text = parts at reads
        cases reads
        rcases classifyWord_eq_or (c :: parts.1) with same | ⟨value, same⟩ <;> simp [same]
      · cases reads
        simp
  all_goals
    cases reads
    simp

/-- Before a closing brace, a semicolon and the end no token goes on. -/
theorem stopsToken_of_scan {lexemes : List Lexeme} (scanned : scan text = .ok lexemes)
    (omits : MayOmit (nextToken lexemes)) : StopsToken text := by
  obtain ⟨_, passes⟩ := passes_of_scanFrom_eq_ok scanned
  cases passes with
  | refl => exact stopsToken_nil
  | lineFeed => exact stopsToken_cons_iff.2 (by decide)
  | blank _ blank => exact stopsToken_cons_iff.2 (isSeparator_of_isBlank blank)
  | token _ reads =>
      obtain ⟨ofBrace, ofSemicolon⟩ := char_of_readToken? reads
      rw [stopsToken_cons_iff]
      rcases omits with (none | brace) | semicolon
      · cases none
      · rw [(ofBrace (Option.some.inj brace)).1]
        decide
      · rw [ofSemicolon (Option.some.inj semicolon)]
        decide

/-- A text whose last token is a closing brace is scanned as it would be alone, whatever follows. -/
theorem Passes.scans_append_of_closeBrace {line next : Nat} {lexemes : List Lexeme}
    (passes : Passes line text lexemes next rest) (consumed : rest = [])
    (closes : ∀ last ∈ lexemes.getLast?, last.token = .closeBrace) (more : Text) :
    Scans (text ++ more) (lexemes.map Lexeme.token) more := by
  induction passes with
  | refl line text =>
      rw [consumed]
      exact scans_refl more
  | lineFeed _ ih => exact (scans_blank (by decide) _).trans (ih consumed closes)
  | blank _ blank _ ih => exact (scans_blank blank _).trans (ih consumed closes)
  | @token line _ c text after _ token others visible reads passes ih =>
      have othersClose : ∀ last ∈ others.getLast?, last.token = .closeBrace := by
        intro last isLast
        refine closes last ?_
        rw [List.getLast?_cons, Option.mem_def.1 isLast]
        rfl
      have readsBefore : readToken? c (text ++ more) = some (token, after ++ more) := by
        by_cases goesOn : after = []
        · -- The token is the last one, so it is the brace.
          subst goesOn
          cases passes
          obtain ⟨rfl, rfl⟩ := (char_of_readToken? reads).1 (closes _ rfl)
          cases reads
          rfl
        · exact readToken?_append reads goesOn more
      exact (scans_token visible readsBefore).trans (ih consumed othersClose)

/-- Whether the second text is the first one without a semicolon that stands outside string literals
and may be left out there. -/
inductive DropsSemicolon : Text → Text → Prop
  | drop {before after : Text} {passed left : List Lexeme} (outside : scan before = .ok passed)
      (follows : scan after = .ok left) (omits : MayOmit (nextToken left)) :
      DropsSemicolon (before ++ ';' :: after) (before ++ after)

/-- The tokens of a text on both sides of a semicolon that stands outside string literals. -/
theorem scans_semicolon {before : Text} {passed : List Lexeme} (outside : scan before = .ok passed) :
    Scans (before ++ ';' :: after) (passed.map Lexeme.token ++ [.semicolon]) after :=
  (scans_append_of_stopsToken outside (stopsToken_cons_iff.2 (by decide))).trans
    (scans_token (by decide) rfl)

theorem readText_of_dropsSemicolon {path : Path} {shorter : Text} {body : Body}
    (drops : DropsSemicolon text shorter) (read : readText path text = .ok body) :
    readText path shorter = .ok body := by
  obtain ⟨items, scans, fits, rfl⟩ := readText_eq_ok_iff_scans.1 read
  cases drops with
  | @drop before after passed left outside follows omits =>
      obtain ⟨found, scanned, isTokens⟩ := scans.exists_left (scans_semicolon outside)
      obtain rfl : left = found := Except.ok.inj (follows.symm.trans scanned)
      rw [List.append_assoc, List.singleton_append] at isTokens
      have omitsHere : MayOmit ((left.map Lexeme.token).head?.or none) := by
        rwa [Option.or_none, List.head?_map]
      obtain ⟨others, isOthers, othersFit, sameBody⟩ :=
        ItemsTree.exists_shorter (.inl rfl) fits isTokens omitsHere
      refine readText_eq_ok_iff_scans.2 ⟨others, ?_, othersFit, sameBody⟩
      rw [isOthers]
      exact (scans_append_of_stopsToken outside (stopsToken_of_scan follows omits)).trans
        (scans_of_scan follows)

/-- Semicolons that may be left out make no difference: any number of them can be left out, and the
text is read as the same. The semicolon after the closing brace of a class, at any depth, can be left
out only before another closing brace, another semicolon and the end. Before anything else the text
is rejected without it. -/
theorem readText_without_semicolons {path : Path} {body : Body} (read : readText path text = .ok body) :
    (∀ shorter, Relation.ReflTransGen DropsSemicolon text shorter →
      readText path shorter = .ok body) ∧
    ∀ before after passed brace, text = before ++ ';' :: after →
      scan before = .ok (passed ++ [brace]) → brace.token = .closeBrace →
      ∃ left, scan after = .ok left ∧
        ((∃ found, readText path (before ++ after) = .ok found) ↔ MayOmit (nextToken left)) := by
  constructor
  · intro shorter drops
    induction drops with
    | refl => exact read
    | tail _ drops ih => exact readText_of_dropsSemicolon drops ih
  · rintro before after passed brace rfl outside closes
    obtain ⟨items, scans, fits, -⟩ := readText_eq_ok_iff_scans.1 read
    obtain ⟨left, scanned, isTokens⟩ := scans.exists_left (scans_semicolon outside)
    refine ⟨left, scanned, ?_, fun omits => ?_⟩
    · rintro ⟨found, readFound⟩
      obtain ⟨others, othersScan, othersFit, -⟩ := readText_eq_ok_iff_scans.1 readFound
      obtain ⟨_, passes⟩ := passes_of_scanFrom_eq_ok outside
      have front := passes.scans_append_of_closeBrace rfl (by simp [closes]) after
      obtain ⟨again, scannedAgain, isOthers⟩ := othersScan.exists_left front
      obtain rfl : left = again := Except.ok.inj (scanned.symm.trans scannedAgain)
      have chain := fits.isChain (.inl rfl)
      have othersChain := othersFit.isChain (.inl rfl)
      rw [isTokens] at chain
      rw [isOthers] at othersChain
      cases left with
      | nil => exact .inl (.inl rfl)
      | cons next left =>
          have inText : ((passed ++ [brace]).map Lexeme.token ++
              .semicolon :: next.token :: left.map Lexeme.token).IsChain MayFollow := by
            simpa using chain
          have inShorter : (passed.map Lexeme.token ++
              .closeBrace :: next.token :: left.map Lexeme.token).IsChain MayFollow := by
            simpa [closes] using othersChain
          have afterSemicolon := (List.isChain_append_cons_cons.1 inText).2.1
          have afterBrace := (List.isChain_append_cons_cons.1 inShorter).2.1
          rcases afterBrace.1 rfl with isBrace | isSemicolon | isComma
          · exact .inl (.inr (congrArg some isBrace))
          · exact .inr (congrArg some isSemicolon)
          · exact absurd isComma (afterSemicolon.2 rfl)
    · exact ⟨body, readText_of_dropsSemicolon (.drop outside scanned omits) read⟩

/-- The semicolon between two classes is needed. -/
theorem rejected_without_semicolon :
    readText aloneFile "class A \x7b\x7d; class B \x7b\x7d;".toList = .ok
        { classes :=
            [{ name := ['A'], base := none, classes := [], assignments := [] },
              { name := ['B'], base := none, classes := [], assignments := [] }] } ∧
      readText aloneFile "class A \x7b\x7d class B \x7b\x7d;".toList =
        .error (.grammar aloneFile 1 (.expectedSemicolon (.word classKeyword))) := by
  have scanned : scan "class A \x7b\x7d; class B \x7b\x7d;".toList = .ok
      [⟨.word classKeyword, 1⟩, ⟨.word ['A'], 1⟩, ⟨.openBrace, 1⟩, ⟨.closeBrace, 1⟩,
        ⟨.semicolon, 1⟩, ⟨.word classKeyword, 1⟩, ⟨.word ['B'], 1⟩, ⟨.openBrace, 1⟩,
        ⟨.closeBrace, 1⟩, ⟨.semicolon, 1⟩] := by
    decide +kernel
  have scannedWithout : scan "class A \x7b\x7d class B \x7b\x7d;".toList = .ok
      [⟨.word classKeyword, 1⟩, ⟨.word ['A'], 1⟩, ⟨.openBrace, 1⟩, ⟨.closeBrace, 1⟩,
        ⟨.word classKeyword, 1⟩, ⟨.word ['B'], 1⟩, ⟨.openBrace, 1⟩, ⟨.closeBrace, 1⟩,
        ⟨.semicolon, 1⟩] := by
    decide +kernel
  constructor
  · rw [readText, scanned]
    rfl
  · rw [readText, scannedWithout]
    rfl

/-- The text of two classes, the first of which has an assignment. -/
def twoClasses : Text := "class A \x7b x = y; \x7d; class B \x7b\x7d;"

/-- Two of the three semicolons can be left out, and the one between the classes cannot. -/
theorem twoClasses_without_semicolons :
    readText aloneFile "class A \x7b x = y \x7d; class B \x7b\x7d".toList = .ok
        { classes :=
            [{ name := ['A'], base := none, classes := []
               assignments :=
                [{ name := ['x'], isArray := false, appends := false, value := .raw ['y'] }] },
              { name := ['B'], base := none, classes := [], assignments := [] }] } ∧
      ¬ ∃ found,
        readText aloneFile "class A \x7b x = y; \x7d class B \x7b\x7d;".toList = .ok found := by
  have scanned : scan twoClasses = .ok
      [⟨.word classKeyword, 1⟩, ⟨.word ['A'], 1⟩, ⟨.openBrace, 1⟩, ⟨.word ['x'], 1⟩, ⟨.equals, 1⟩,
        ⟨.word ['y'], 1⟩, ⟨.semicolon, 1⟩, ⟨.closeBrace, 1⟩, ⟨.semicolon, 1⟩,
        ⟨.word classKeyword, 1⟩, ⟨.word ['B'], 1⟩, ⟨.openBrace, 1⟩, ⟨.closeBrace, 1⟩,
        ⟨.semicolon, 1⟩] := by
    decide +kernel
  have read : ∃ body, readText aloneFile twoClasses = .ok body ∧ body =
      { classes :=
          [{ name := ['A'], base := none, classes := []
             assignments :=
              [{ name := ['x'], isArray := false, appends := false, value := .raw ['y'] }] },
            { name := ['B'], base := none, classes := [], assignments := [] }] } := by
    refine ⟨_, ?_, rfl⟩
    rw [readText, scanned]
    rfl
  obtain ⟨body, read, isBody⟩ := read
  have first : DropsSemicolon twoClasses "class A \x7b x = y \x7d; class B \x7b\x7d;".toList := by
    have outside : scan "class A \x7b x = y".toList = .ok
        [⟨.word classKeyword, 1⟩, ⟨.word ['A'], 1⟩, ⟨.openBrace, 1⟩, ⟨.word ['x'], 1⟩,
          ⟨.equals, 1⟩, ⟨.word ['y'], 1⟩] := by
      decide +kernel
    have follows : scan " \x7d; class B \x7b\x7d;".toList = .ok
        [⟨.closeBrace, 1⟩, ⟨.semicolon, 1⟩, ⟨.word classKeyword, 1⟩, ⟨.word ['B'], 1⟩,
          ⟨.openBrace, 1⟩, ⟨.closeBrace, 1⟩, ⟨.semicolon, 1⟩] := by
      decide +kernel
    exact .drop outside follows (.inl (.inr rfl))
  have second : DropsSemicolon "class A \x7b x = y \x7d; class B \x7b\x7d;".toList
      "class A \x7b x = y \x7d; class B \x7b\x7d".toList := by
    have outside : scan "class A \x7b x = y \x7d; class B \x7b\x7d".toList = .ok
        [⟨.word classKeyword, 1⟩, ⟨.word ['A'], 1⟩, ⟨.openBrace, 1⟩, ⟨.word ['x'], 1⟩,
          ⟨.equals, 1⟩, ⟨.word ['y'], 1⟩, ⟨.closeBrace, 1⟩, ⟨.semicolon, 1⟩,
          ⟨.word classKeyword, 1⟩, ⟨.word ['B'], 1⟩, ⟨.openBrace, 1⟩, ⟨.closeBrace, 1⟩] := by
      decide +kernel
    exact .drop outside (show scan [] = .ok [] by decide +kernel) (.inl (.inl rfl))
  have between : scan "class A \x7b x = y; \x7d".toList = .ok
      ([⟨.word classKeyword, 1⟩, ⟨.word ['A'], 1⟩, ⟨.openBrace, 1⟩, ⟨.word ['x'], 1⟩,
        ⟨.equals, 1⟩, ⟨.word ['y'], 1⟩, ⟨.semicolon, 1⟩] ++ [⟨.closeBrace, 1⟩]) := by
    decide +kernel
  have follows : scan " class B \x7b\x7d;".toList = .ok
      [⟨.word classKeyword, 1⟩, ⟨.word ['B'], 1⟩, ⟨.openBrace, 1⟩, ⟨.closeBrace, 1⟩,
        ⟨.semicolon, 1⟩] := by
    decide +kernel
  obtain ⟨same, needed⟩ := readText_without_semicolons read
  refine ⟨?_, fun found => ?_⟩
  · rw [same _ (.tail (.single first) second), isBody]
  · obtain ⟨left, scannedLeft, omits⟩ := needed _ " class B \x7b\x7d;".toList _ _ rfl between rfl
    obtain rfl := Except.ok.inj (follows.symm.trans scannedLeft)
    rcases omits.1 found with (none | brace) | semicolon
    · cases none
    · cases brace
    · cases semicolon

end AddonIndex.ClassConfig
