import AddonIndex.Configuration.Store
import AddonIndex.Proofs.FileTree.Outcome
import AddonIndex.Proofs.Text.Encoding
import AddonIndex.Proofs.Yaml.Document

/-!
# What is kept is loaded again

A selection and the settings are written as documents that read back as themselves, whatever texts they hold: a text
that the schema would take for something else is written in quotes. So what was saved is what is loaded afterwards, the
selection with the project directory filled in.
-/

namespace AddonIndex

open Yaml

namespace Yaml

variable {c : Char} {text : Text}

/-! ## Words without marks -/

/-- A character that means nothing to the reader of a document, wherever it stands. -/
structure IsOrdinary (c : Char) : Prop where
  printable : isPrintable c = true
  visible : isGap c = false
  noMark : c ∉ ':' :: '-' :: '?' :: '.' :: leadingMarks

instance (c : Char) : Decidable (IsOrdinary c) :=
  decidable_of_iff (isPrintable c = true ∧ isGap c = false ∧ c ∉ ':' :: '-' :: '?' :: '.' :: leadingMarks)
    ⟨fun ⟨printable, visible, noMark⟩ => ⟨printable, visible, noMark⟩,
      fun ⟨printable, visible, noMark⟩ => ⟨printable, visible, noMark⟩⟩

/-- Letters and digits are ordinary. -/
theorem isOrdinary_of_isAlphanum (isWord : c.isAlphanum = true) : IsOrdinary c := by
  have each : ∀ n < 128, (Char.ofNat n).isAlphanum = true → IsOrdinary (Char.ofNat n) := by decide +kernel
  have ascii : c.toNat < 128 := by
    unfold Char.isAlphanum Char.isAlpha Char.isUpper Char.isLower Char.isDigit at isWord
    simp only [Bool.or_eq_true, Bool.and_eq_true, decide_eq_true_eq, ge_iff_le, UInt32.le_iff_toNat_le,
      Char.toNat_val] at isWord
    rcases isWord with (upper | lower) | digit
    · exact Nat.lt_of_le_of_lt upper.2 (by decide)
    · exact Nat.lt_of_le_of_lt lower.2 (by decide)
    · exact Nat.lt_of_le_of_lt digit.2 (by decide)
  have isOrdinary := each c.toNat ascii
  rw [Char.ofNat_toNat] at isOrdinary
  exact isOrdinary isWord

theorem IsOrdinary.ne {mark : Char} (ordinary : IsOrdinary c)
    (isMark : mark ∈ ':' :: '-' :: '?' :: '.' :: leadingMarks) : c ≠ mark := by
  rintro rfl
  exact ordinary.noMark isMark

theorem IsOrdinary.noOuterGap (ordinary : IsOrdinary c) : (c == ' ' || isBreak c) = false := by
  have visible := ordinary.visible
  simp only [isGap, isBlank, Bool.or_eq_false_iff] at visible ⊢
  exact ⟨visible.1.1, visible.2⟩

/-- Among ordinary characters there is no mark. -/
theorem containsMark_eq_false (ordinary : ∀ c ∈ text, IsOrdinary c) : containsMark text = false := by
  have noInnerMark (afterGap : Bool) : hasInnerMark afterGap text = false := by
    induction text generalizing afterGap with
    | nil => rfl
    | cons c rest ih =>
        rcases List.forall_mem_cons.1 ordinary with ⟨ordinary, ordinaryRest⟩
        rw [hasInnerMark, beq_false_of_ne (ordinary.ne (by decide)), beq_false_of_ne (ordinary.ne (by decide)),
          ih ordinaryRest]
        rfl
  cases text with
  | nil => rfl
  | cons c rest =>
      have ordinary := ordinary c List.mem_cons_self
      have noMark : leadingMarks.contains c = false := by
        rw [List.contains_eq_mem, decide_eq_false_iff_not]
        exact fun isMark => ordinary.noMark (by simp [isMark])
      have noLead {mark : Char} (lead : Text) (other : c ≠ mark) :
          Text.startsWith (c :: rest) (mark :: lead) = false := by
        simp [Text.startsWith, dropLead?, other.symm]
      have noDashes : Text.startsWith (c :: rest) "---".toList = false := noLead ['-', '-'] (ordinary.ne (by decide))
      have noDots : Text.startsWith (c :: rest) "...".toList = false := noLead ['.', '.'] (ordinary.ne (by decide))
      have noDash : (c == '-') = false := beq_false_of_ne (ordinary.ne (by decide))
      have noQuestion : (c == '?') = false := beq_false_of_ne (ordinary.ne (by decide))
      simp only [containsMark, noDashes, noDots, noMark, noDash, noQuestion, noInnerMark]
      rfl

/-- A word of ordinary characters is kept as it is. -/
theorem keeps_plain (nonempty : text ≠ []) (ordinary : ∀ c ∈ text, IsOrdinary c) : Keeps .plain text := by
  have noSpecial : text.any (!isPrintable ·) = false :=
    List.any_eq_false.2 fun c member => by rw [(ordinary c member).printable]; decide
  have noBreak : text.any isBreak = false :=
    List.any_eq_false.2 fun c member => by
      rw [(Bool.or_eq_false_iff.1 (ordinary c member).noOuterGap).2]
      decide
  refine ⟨nonempty, ?_⟩
  have isFirst := List.head?_eq_some_head nonempty
  have isLast := List.getLast?_eq_some_getLast nonempty
  have noFirst := (ordinary _ (List.head_mem nonempty)).noOuterGap
  have noLast := (ordinary _ (List.getLast_mem nonempty)).noOuterGap
  simp only [Traits.allowsPlain, Traits.of, containsMark_eq_false ordinary, noSpecial, noBreak, isFirst, isLast,
    noFirst, noLast]
  rfl

/-! ## Numbers -/

/-- The digits of a number begin with zero only if it is zero. -/
theorem exists_toDigits_eq_cons (n : Nat) :
    ∃ c rest, Nat.toDigits 10 n = c :: rest ∧ (c = '0' → rest = [] ∧ n = 0) := by
  induction n using Nat.strong_induction_on with
  | h n ih =>
      by_cases small : n < 10
      · have each : ∀ digit : Fin 10, digit.val.digitChar = '0' → digit.val = 0 := by decide
        exact ⟨_, [], Nat.toDigits_of_lt_base small, fun isZero => ⟨rfl, each ⟨n, small⟩ isZero⟩⟩
      · rcases ih (n / 10) (Nat.div_lt_self (by omega) (by decide)) with ⟨c, rest, digits, single⟩
        refine ⟨c, rest ++ [(n % 10).digitChar], ?_, fun zero => ?_⟩
        · rw [Nat.toDigits_of_base_le (by decide) (Nat.not_lt.1 small), digits]
          rfl
        · have isZero := (single zero).2
          omega

theorem hexDigitValue?_of_isDigit (isDigit : c.isDigit = true) :
    hexDigitValue? c = some (c.toNat - '0'.toNat) ∧ c.toNat - '0'.toNat < 10 := by
  simp only [Char.isDigit, Bool.and_eq_true, decide_eq_true_eq, ge_iff_le] at isDigit
  have last : c.toNat ≤ '9'.toNat := UInt32.le_iff_toNat_le.1 isDigit.2
  exact ⟨if_pos isDigit, Nat.lt_succ_of_le (Nat.sub_le_sub_right last '0'.toNat)⟩

/-- A fold of steps that succeed succeeds. -/
theorem foldlM_eq_some {α β : Type} {step : β → α → Option β} {next : β → α → β} {items : List α}
    (succeeds : ∀ item ∈ items, ∀ value, step value item = some (next value item)) (value : β) :
    items.foldlM step value = some (items.foldl next value) := by
  induction items generalizing value with
  | nil => rfl
  | cons item items ih =>
      rcases List.forall_mem_cons.1 succeeds with ⟨first, later⟩
      rw [List.foldlM_cons, first, List.foldl_cons]
      exact ih later _

theorem radixValue?_of_isDigit (nonempty : text ≠ []) (areDigits : ∀ c ∈ text, c.isDigit = true) :
    radixValue? 10 text = some (decimalValue text) := by
  rw [radixValue?, if_neg (by simpa using nonempty)]
  refine foldlM_eq_some (fun c member value => ?_) 0
  rcases hexDigitValue?_of_isDigit (areDigits c member) with ⟨isValue, small⟩
  rw [isValue]
  exact if_pos small

theorem isDigit_of_mem_ofNat (n : Nat) : ∀ c ∈ Text.ofNat n, c.isDigit = true := fun _ member =>
  Nat.isDigit_of_mem_toDigits (by decide) (by decide) member

/-- The digits of a number are read as the number. -/
theorem natural?_ofNat (n : Nat) : natural? (Text.ofNat n) = some n := by
  have areDigits := isDigit_of_mem_ofNat n
  obtain ⟨c, rest, isText, single⟩ := exists_toDigits_eq_cons n
  have isDecimal : radixValue? 10 (Text.ofNat n) = some n := by
    rw [radixValue?_of_isDigit (by rw [Text.ofNat, isText]; exact List.cons_ne_nil _ _) areDigits, Text.ofNat,
      decimalValue_toDigits]
  rw [Text.ofNat, isText] at isDecimal areDigits ⊢
  have apart {other : Text} (sign : Char) (noDigit : sign.isDigit = false) (member : sign ∈ other) :
      c :: rest ≠ other := by
    intro same
    exact absurd ((areDigits sign (same ▸ member)).symm.trans noDigit) (by decide)
  have noZero : hasLeadingZero (c :: rest) = false := by
    have unsigned : dropSign (c :: rest) = c :: rest := by
      rw [dropSign]
      · exact fun _ => apart '-' (by decide) List.mem_cons_self
      · exact fun _ => apart '+' (by decide) List.mem_cons_self
    rw [hasLeadingZero, unsigned]
    split
    · rename_i isZero
      cases isZero
      exact absurd (single rfl).1 (List.cons_ne_nil _ _)
    · rfl
  rw [natural?]
  · rw [noZero]
    exact isDecimal
  · exact fun _ => apart '+' (by decide) List.mem_cons_self
  · exact fun _ => apart 'x' (by decide) (List.mem_cons_of_mem _ List.mem_cons_self)
  · exact fun _ => apart 'o' (by decide) (List.mem_cons_of_mem _ List.mem_cons_self)
  · exact fun _ => apart 'b' (by decide) (List.mem_cons_of_mem _ List.mem_cons_self)

/-- A number is kept by its digits. -/
theorem keeps_ofNat (n : Nat) : Keeps .plain (Text.ofNat n) := by
  refine keeps_plain ?_ fun c member => isOrdinary_of_isAlphanum ?_
  · obtain ⟨c, rest, isText, -⟩ := exists_toDigits_eq_cons n
    rw [Text.ofNat, isText]
    exact List.cons_ne_nil _ _
  · rw [Char.isAlphanum, isDigit_of_mem_ofNat n c member, Bool.or_true]

/-! ## Values of fields -/

namespace Node

theorem natural?_ofNat {limit n : Nat} (small : n < limit) :
    natural? limit (.scalar .plain none (Text.ofNat n)) = some n := by
  have isNumber : natural? limit (.scalar .plain none (Text.ofNat n)) =
      (Yaml.natural? (Text.ofNat n)).bind fun value => if value < limit then some value else none := rfl
  rw [isNumber, Yaml.natural?_ofNat, Option.bind_some, if_pos small]

/-- A text that is written plainly is not taken for anything else. -/
theorem isAmbiguous_of_chooseStyle {text : Text} (isPlain : chooseStyle text = .plain) : isAmbiguous text = false := by
  unfold chooseStyle at isPlain
  dsimp only at isPlain
  split at isPlain
  · split at isPlain <;> cases isPlain
  split at isPlain
  · rename_i allowed
    simpa using allowed.2
  · split at isPlain <;> cases isPlain

/-- No text is taken for one that is left out: what looks like a null is written in quotes. -/
theorem optionalText?_chooseStyle (text : Text) :
    optionalText? (.scalar (chooseStyle text) none text) = some (some text) := by
  cases isStyle : chooseStyle text with
  | plain =>
      have notAmbiguous := isAmbiguous_of_chooseStyle isStyle
      simp only [isAmbiguous, Bool.or_eq_false_iff] at notAmbiguous
      rcases notAmbiguous with ⟨⟨⟨⟨⟨nonempty, notNull⟩, -⟩, -⟩, -⟩, -⟩
      rw [optionalText?, nonempty, notNull]
      rfl
  | _ => rfl

theorem texts?_itemNodes (items : List Text) : texts? (.sequence (itemNodes items)) = some items := by
  have isText (text : Text) : text? (.scalar (chooseStyle text) none text) = some text := rfl
  change (itemNodes items).mapM text? = some items
  induction items with
  | nil => rfl
  | cons text items ih =>
      rw [itemNodes, List.map_cons, List.mapM_cons, isText, ← itemNodes, ih]
      rfl

/-- The names of fields with the nodes of their values. -/
def recordOf (fields : List (Text × Content)) : Record := fields.map fun field => (field.1, field.2.node)

/-- The entries of fields are a record of them. -/
theorem record?_fieldEntries {known : List Text} {fields : List (Text × Content)}
    (distinct : ((fields.map Prod.fst).filter known.contains).Nodup) :
    record? known (.mapping (fieldEntries fields)) = some (recordOf fields) := by
  have areFields : (fieldEntries fields).mapM (fun entry => entry.1.text?.map (·, entry.2)) =
      some (recordOf fields) := by
    clear distinct
    induction fields with
    | nil => rfl
    | cons field fields ih =>
        have isField : (Node.scalar .plain none field.1).text? = some field.1 := rfl
        rw [fieldEntries, List.map_cons, List.mapM_cons, isField, ← fieldEntries, ih]
        rfl
  have areNames : (recordOf fields).map Prod.fst = fields.map Prod.fst := by
    rw [recordOf, List.map_map]
    rfl
  rw [record?, areFields]
  change (if _ then _ else _) = _
  rw [areNames, if_pos distinct]

end Node

end Yaml

/-! ## Documents -/

namespace Selection

/-- The fields of the document of a selection. -/
def fields (selection : Selection) : List (Text × Content) :=
  [("roots".toList, .texts selection.roots),
    ("reference-dir".toList, .scalar (chooseStyle selection.referenceDirectory) selection.referenceDirectory),
    ("blacklist".toList, .texts selection.denied), ("whitelist".toList, .texts selection.allowed)]

theorem write_eq (selection : Selection) : selection.write = writeFields selection.fields := by
  have roots : "roots:".toList = "roots".toList ++ [':'] := rfl
  have reference : "reference-dir: ".toList = "reference-dir".toList ++ [':', ' '] := rfl
  have denied : "blacklist:".toList = "blacklist".toList ++ [':'] := rfl
  have allowed : "whitelist:".toList = "whitelist".toList ++ [':'] := rfl
  have noFields : writeFields [] = [] := rfl
  unfold write fields
  simp only [roots, reference, denied, allowed, writeFields_cons, noFields, Content.write, writeText,
    List.append_assoc, List.cons_append, List.nil_append, List.append_nil]

theorem areKept_fields (selection : Selection) : AreKept selection.fields := by
  have names : ∀ name ∈ fieldNames, IsFieldName name := by decide
  simp only [fieldNames, List.forall_mem_cons] at names
  rcases names with ⟨roots, reference, denied, allowed, -⟩
  simp only [fields, AreKept, List.forall_mem_cons]
  exact ⟨⟨roots, trivial⟩, ⟨reference, keeps_chooseStyle _⟩, ⟨denied, trivial⟩, ⟨allowed, trivial⟩, nofun⟩

/-- A selection is read from its document. -/
theorem parse?_write (selection : Selection) : parse? selection.write = some selection := by
  have isRead : read? (writeFields selection.fields) = some (.mapping (fieldEntries selection.fields)) :=
    read?_writeFields (List.cons_ne_nil _ _) selection.areKept_fields
  have distinct : (fieldNames.filter fieldNames.contains).Nodup := by decide
  have isRecord : (Node.mapping (fieldEntries selection.fields)).record? fieldNames =
      some (Node.recordOf selection.fields) := Node.record?_fieldEntries distinct
  have roots : (Node.recordOf selection.fields).field "roots".toList Node.texts? [] = some selection.roots :=
    Node.texts?_itemNodes selection.roots
  have reference : (Node.recordOf selection.fields).required "reference-dir".toList Node.text? =
      some selection.referenceDirectory := rfl
  have denied : (Node.recordOf selection.fields).field "blacklist".toList Node.texts? [] = some selection.denied :=
    Node.texts?_itemNodes selection.denied
  have allowed : (Node.recordOf selection.fields).field "whitelist".toList Node.texts? [] = some selection.allowed :=
    Node.texts?_itemNodes selection.allowed
  rw [parse?, write_eq, isRead, Option.bind_some, ofNode?, isRecord]
  simp only [Option.bind_eq_bind, Option.bind_some, roots, reference, denied, allowed]
  rfl

end Selection

namespace Settings

/-- Whether the numbers of the settings have 64 bits. -/
structure NumbersFit (settings : Settings) : Prop where
  extractTimeout : settings.extractTimeoutSeconds < numberLimit
  convertTimeout : settings.convertTimeoutSeconds < numberLimit
  workerThreads : settings.workerThreads < numberLimit

/-- A path as it is written. -/
def pathContent (path : Path) : Content := .scalar (chooseStyle path.text) path.text

/-- The tools directory as it is written: a null if there is none. -/
def toolsContent (directory : Option Path) : Content := directory.elim (.scalar .plain "null".toList) pathContent

/-- A number as it is written. -/
def numberContent (n : Nat) : Content := .scalar .plain (Text.ofNat n)

/-- A truth value as it is written. -/
def truthContent (value : Bool) : Content := .scalar .plain (if value then "true" else "false").toList

/-- The fields of the document of settings. -/
def fields (settings : Settings) : List (Text × Content) :=
  [("tools-directory".toList, toolsContent settings.toolsDirectory),
    ("extractor".toList, pathContent settings.extractor), ("converter".toList, pathContent settings.converter),
    ("extract-timeout-secs".toList, numberContent settings.extractTimeoutSeconds),
    ("convert-timeout-secs".toList, numberContent settings.convertTimeoutSeconds),
    ("worker-threads".toList, numberContent settings.workerThreads),
    ("log-directory".toList, pathContent settings.logDirectory),
    ("debug-mode".toList, truthContent settings.debugMode)]

theorem write_eq (settings : Settings) : settings.write = writeFields settings.fields := by
  have noFields : writeFields [] = [] := rfl
  have paths (name : Text) (path : Path) :
      name ++ ": ".toList ++ writeText path.text = name ++ ':' :: (pathContent path).write :=
    List.append_assoc name [':', ' '] _
  have numbers (name : Text) (n : Nat) :
      name ++ ": ".toList ++ Text.ofNat n ++ ['\n'] = name ++ ':' :: (numberContent n).write := by
    rw [List.append_assoc, List.append_assoc]
    rfl
  have noTools : "tools-directory: null\n".toList = "tools-directory".toList ++ ':' :: (toolsContent none).write := rfl
  have truth (value : Bool) : (if value then "debug-mode: true\n" else "debug-mode: false\n").toList =
      "debug-mode".toList ++ ':' :: (truthContent value).write := by
    cases value <;> rfl
  obtain ⟨tools, extractor, converter, extractTimeout, convertTimeout, threads, log, debug⟩ := settings
  unfold write fields
  cases tools with
  | none =>
      simp only [noTools, paths, numbers, truth]
      simp only [writeFields_cons, noFields, List.append_assoc, List.cons_append, List.append_nil]
  | some directory =>
      simp only [paths, numbers, truth]
      simp only [writeFields_cons, noFields, List.append_assoc, List.cons_append, List.append_nil]
      rfl

theorem areKept_fields (settings : Settings) : AreKept settings.fields := by
  have names : ∀ name ∈ fieldNames, IsFieldName name := by decide
  have word {text : Text} (nonempty : text ≠ []) (isWord : text.all Char.isAlphanum = true) : Keeps .plain text :=
    keeps_plain nonempty fun c member => isOrdinary_of_isAlphanum (List.all_eq_true.1 isWord c member)
  have tools : (toolsContent settings.toolsDirectory).IsKept := by
    cases settings.toolsDirectory with
    | some directory => exact keeps_chooseStyle directory.text
    | none => exact word (by decide) (by decide)
  have truth : (truthContent settings.debugMode).IsKept := by
    cases settings.debugMode <;> exact word (by decide) (by decide)
  simp only [fieldNames, List.forall_mem_cons] at names
  rcases names with ⟨toolsDirectory, extractor, converter, extractTimeout, convertTimeout, threads, log, debug, -⟩
  simp only [fields, AreKept, List.forall_mem_cons]
  exact ⟨⟨toolsDirectory, tools⟩, ⟨extractor, keeps_chooseStyle _⟩, ⟨converter, keeps_chooseStyle _⟩,
    ⟨extractTimeout, keeps_ofNat _⟩, ⟨convertTimeout, keeps_ofNat _⟩, ⟨threads, keeps_ofNat _⟩,
    ⟨log, keeps_chooseStyle _⟩, ⟨debug, truth⟩, nofun⟩

/-- Settings whose numbers have 64 bits are read from their document. -/
theorem parse?_write (settings : Settings) (fits : settings.NumbersFit) : parse? settings.write = some settings := by
  have isRead : read? (writeFields settings.fields) = some (.mapping (fieldEntries settings.fields)) :=
    read?_writeFields (List.cons_ne_nil _ _) settings.areKept_fields
  have distinct : (fieldNames.filter fieldNames.contains).Nodup := by decide
  have isRecord : (Node.mapping (fieldEntries settings.fields)).record? fieldNames =
      some (Node.recordOf settings.fields) := Node.record?_fieldEntries distinct
  have tools : (Node.recordOf settings.fields).field "tools-directory".toList
      (fun node => node.optionalText?.map (·.map Path.mk)) none = some settings.toolsDirectory := by
    change (toolsContent settings.toolsDirectory).node.optionalText?.map (·.map Path.mk) = _
    cases settings.toolsDirectory with
    | some directory => exact congrArg (Option.map (·.map Path.mk)) (Node.optionalText?_chooseStyle directory.text)
    | none => rfl
  have truth : (Node.recordOf settings.fields).field "debug-mode".toList Node.truthValue? false =
      some settings.debugMode := by
    change (truthContent settings.debugMode).node.truthValue? = _
    cases settings.debugMode <;> rfl
  have extractor (standard : Path) : (Node.recordOf settings.fields).field "extractor".toList
      (fun node => node.text?.map Path.mk) standard = some settings.extractor := rfl
  have converter (standard : Path) : (Node.recordOf settings.fields).field "converter".toList
      (fun node => node.text?.map Path.mk) standard = some settings.converter := rfl
  have log (standard : Path) : (Node.recordOf settings.fields).field "log-directory".toList
      (fun node => node.text?.map Path.mk) standard = some settings.logDirectory := rfl
  have extractTimeout (standard : Nat) : (Node.recordOf settings.fields).field "extract-timeout-secs".toList
      (Node.natural? numberLimit) standard = some settings.extractTimeoutSeconds :=
    Node.natural?_ofNat fits.extractTimeout
  have convertTimeout (standard : Nat) : (Node.recordOf settings.fields).field "convert-timeout-secs".toList
      (Node.natural? numberLimit) standard = some settings.convertTimeoutSeconds :=
    Node.natural?_ofNat fits.convertTimeout
  have threads (standard : Nat) : (Node.recordOf settings.fields).field "worker-threads".toList
      (Node.natural? numberLimit) standard = some settings.workerThreads :=
    Node.natural?_ofNat fits.workerThreads
  rw [parse?, write_eq, isRead, Option.bind_some, ofNode?, isRecord]
  simp only [Option.bind_eq_bind, Option.bind_some, tools, extractor, converter, extractTimeout, convertTimeout,
    threads, log, truth]
  rfl

end Settings

/-! ## The configuration directory -/

namespace ConfigurationStore

open FileOp

variable {tree after : FileTree} {path : Path} {text : Text}

/-- What was written to a document is read from it. -/
theorem readText_of_writeText (written : (writeText path text).run tree = (after, .ok ())) :
    after.pathExists path = true ∧ after.readText path = .ok text := by
  obtain ⟨executable, found⟩ := find_of_writeBytes written
  exact ⟨FileTree.pathExists_iff.2 ⟨_, _, found⟩,
    FileTree.readText_eq_ok_iff.2 ⟨_, _, executable, found, text.decode?_encode⟩⟩

/-- An explained operation does what the operation does, and never fails. -/
theorem run_explain {α : Type} (words : FileError → ConfigurationError) (operation : FileOp α) (tree : FileTree) :
    (explain words operation).run tree =
      ((operation.run tree).1, .ok ((operation.run tree).2.mapError words)) := by
  have attempted : (operation.attempt tree).2 = .ok (operation tree).2 := rfl
  rw [run_eq, run_eq, explain, bind_of_ok attempted]
  change (tree.applyAll ((operation tree).1 ++ []), _) = _
  rw [List.append_nil]
  rfl

/-- A document is written where a file can be; otherwise nothing is changed. -/
theorem run_explain_writeText (words : FileError → ConfigurationError) (path : Path) (text : Text) (tree : FileTree) :
    (∃ cause, writable path tree = .error cause ∧
      (explain words (writeText path text)).run tree = (tree, .ok (.error (words cause)))) ∨
    ∃ after, (explain words (writeText path text)).run tree = (after, .ok (.ok ())) ∧
      after.pathExists path = true ∧ after.readText path = .ok text := by
  have isWritten := writeBytes_eq path text.encode tree
  rw [run_explain]
  cases canWrite : writable path tree with
  | error cause =>
      rw [canWrite] at isWritten
      have isRun : (writeText path text).run tree = (tree, .error cause) := by
        rw [run_eq, FileOp.writeText, isWritten]
        rfl
      exact .inl ⟨cause, rfl, by rw [isRun]; rfl⟩
  | ok found =>
      rw [canWrite] at isWritten
      obtain ⟨after, isRun⟩ : ∃ after, (writeText path text).run tree = (after, .ok ()) := by
        rw [run_eq, FileOp.writeText, isWritten]
        exact ⟨_, rfl⟩
      exact .inr ⟨after, by rw [isRun]; rfl, readText_of_writeText isRun⟩

/-- Whatever is saved is loaded again. If a document cannot be written nothing is changed. Otherwise the selection that
is loaded is the one that was saved, with any project directory filled in, and the settings are those that were
saved. -/
theorem load_of_save (store : ConfigurationStore) (tree : FileTree) :
    (∀ selection : Selection,
      (∃ cause, writable store.selectionPath tree = .error cause ∧ (store.saveSelection selection).run tree =
        (tree, .ok (.error (.writeSelection store.selectionPath cause)))) ∨
      ∃ after, (store.saveSelection selection).run tree = (after, .ok (.ok ())) ∧
        ∀ project, store.loadSelection project after = .ok (some (selection.resolve project))) ∧
    ∀ settings : Settings, settings.NumbersFit →
      (∃ cause, writable store.settingsPath tree = .error cause ∧ (store.saveSettings settings).run tree =
        (tree, .ok (.error (.writeSettings store.settingsPath cause)))) ∨
      ∃ after, (store.saveSettings settings).run tree = (after, .ok (.ok ())) ∧
        store.loadSettings after = .ok settings := by
  constructor
  · intro selection
    rcases run_explain_writeText (.writeSelection store.selectionPath) store.selectionPath selection.write tree with
      failed | ⟨after, isSaved, present, isRead⟩
    · exact .inl failed
    · refine .inr ⟨after, isSaved, fun project => ?_⟩
      have isStored : store.storedSelection after = .ok (some selection) := by
        rw [storedSelection, present, isRead, mapError_ok, if_neg (by decide), ok_bind, selection.parse?_write]
        rfl
      rw [loadSelection, isStored]
      rfl
  · intro settings fits
    rcases run_explain_writeText (.writeSettings store.settingsPath) store.settingsPath settings.write tree with
      failed | ⟨after, isSaved, present, isRead⟩
    · exact .inl failed
    · refine .inr ⟨after, isSaved, ?_⟩
      rw [loadSettings, present, isRead, mapError_ok, if_neg (by decide), ok_bind, settings.parse?_write fits]
      rfl

/-- A configuration directory with a selection in it. -/
def configuredTree : FileTree :=
  { entries := [(["conf".toList], .directory), (["conf".toList, selectionFile], .file ByteArray.empty false)] }

/-- A selection of texts that look like something else. -/
def lookalikes : Selection where
  roots := ["$PROJECT_DIR$/mods".toList, [], "true".toList, "# none".toList, "a\n b".toList]
  referenceDirectory := "0x1F".toList
  denied := ["~".toList, "- a: b".toList]
  allowed := []

/-- Settings with the greatest numbers. -/
def greatestSettings : Settings where
  toolsDirectory := some "null"
  extractor := " "
  extractTimeoutSeconds := 18446744073709551615
  convertTimeoutSeconds := 18446744073709551615
  workerThreads := 0
  debugMode := true

theorem load_of_save_lookalikes :
    (∃ after, (saveSelection ⟨"conf"⟩ lookalikes).run configuredTree = (after, .ok (.ok ())) ∧
      loadSelection ⟨"conf"⟩ (some "/p".toList) after = .ok (some
        { lookalikes with roots := ["/p/mods".toList, [], "true".toList, "# none".toList, "a\n b".toList] })) ∧
    greatestSettings.NumbersFit ∧
    ∃ after, (saveSettings ⟨"conf"⟩ greatestSettings).run configuredTree = (after, .ok (.ok ())) ∧
      loadSettings ⟨"conf"⟩ after = .ok greatestSettings := by
  have fits : greatestSettings.NumbersFit := ⟨by decide, by decide, by decide⟩
  have selectionWritable : writable (selectionPath ⟨"conf"⟩) configuredTree =
      .ok (["conf".toList, selectionFile], false) := by rfl
  have settingsWritable : writable (settingsPath ⟨"conf"⟩) configuredTree =
      .ok (["conf".toList, settingsFile], false) := by rfl
  rcases load_of_save ⟨"conf"⟩ configuredTree with ⟨selections, settings⟩
  refine ⟨?_, fits, ?_⟩
  · rcases selections lookalikes with ⟨cause, fails, -⟩ | ⟨after, isSaved, loads⟩
    · rw [selectionWritable] at fails
      cases fails
    · exact ⟨after, isSaved, (loads _).trans (congrArg (Except.ok ∘ some) (by decide +kernel))⟩
  · rcases settings greatestSettings fits with ⟨cause, fails, -⟩ | saved
    · rw [settingsWritable] at fails
      cases fails
    · exact saved

end ConfigurationStore

end AddonIndex
