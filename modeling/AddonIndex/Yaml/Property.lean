import AddonIndex.Number.Literal
import AddonIndex.Yaml.Cursor
import AddonIndex.Yaml.Node

/-!
# Anchors, tags and directives

A node can be given a name, by which it is repeated later, and a tag. Tags are
written with a handle, which stands for the first part of the tag; directives at
the beginning of a document define handles.
-/

namespace AddonIndex.Yaml

/-- The characters of names and handles. -/
def isWordChar (c : Char) : Bool := c.isAlphanum || c == '-' || c == '_'

/-- The name after the sign of an anchor or of an alias, and what follows. -/
def readName? (text : Text) : Option (Text × Text) :=
  let name := text.takeWhile isWordChar
  let rest := text.dropWhile isWordChar
  let ends :=
    match rest with
    | [] => true
    | c :: _ => isGap c || ['?', ':', ',', ']', '\x7d', '%', '@', '\x60'].contains c
  if name.isEmpty || !ends then none else some (name, rest)

/-- Whether a tag can hold a character. Commas and brackets are allowed in a tag
that is written in full. -/
def isTagChar (full : Bool) (c : Char) : Bool :=
  isWordChar c ||
    [';', '/', '?', ':', '@', '&', '=', '+', '$', '.', '%', '!', '~', '*', '\'', '(', ')'].contains c ||
    (full && [',', '[', ']'].contains c)

/-- The bytes of a part of a tag, in which a percent sign and two digits stand for
a byte. -/
def tagBytes? : Text → Option (List UInt8)
  | [] => some []
  | '%' :: a :: b :: rest => do
      let high ← hexDigitValue? a
      let low ← hexDigitValue? b
      let bytes ← tagBytes? rest
      return UInt8.ofNat (16 * high + low) :: bytes
  | c :: rest =>
      if c = '%' then none else (tagBytes? rest).map (UInt8.ofNat c.toNat :: ·)

/-- A part of a tag and what follows. -/
def readTagPart? (full : Bool) (text : Text) : Option (Text × Text) := do
  let bytes ← tagBytes? (text.takeWhile (isTagChar full))
  let part ← Text.decode? (ByteArray.mk bytes.toArray)
  return (part, text.dropWhile (isTagChar full))

/-- What handles stand for. -/
abbrev Handles := List (Text × Text)

/-- The handles of a document without directives. -/
def Handles.standard : Handles :=
  [(['!'], ['!']), (['!', '!'], "tag:yaml.org,2002:".toList)]

/-- The tag that is built from a handle and a part. -/
def Handles.expand? (handles : Handles) (handle part : Text) : Option Text :=
  (handles.lookup handle).map (· ++ part)

/-- The handle that a text begins with: a word between exclamation marks. The
first mark is taken off already. -/
def readHandle? (text : Text) : Option (Text × Text) :=
  match text.dropWhile isWordChar with
  | '!' :: rest => some ('!' :: text.takeWhile isWordChar ++ ['!'], rest)
  | _ => none

/-- The tag after its exclamation mark, and what follows. -/
def readTag? (handles : Handles) (text : Text) : Option (Text × Text) :=
  match text with
  | '<' :: inner => do
      let (tag, rest) ← readTagPart? true inner
      match rest with
      | '>' :: rest => if tag.isEmpty then none else some (tag, rest)
      | _ => none
  | _ =>
      match readHandle? text with
      | some (handle, rest) => do
          let (part, rest) ← readTagPart? false rest
          if part.isEmpty then none
          else
            let tag ← handles.expand? handle part
            return (tag, rest)
      | none => do
          let (part, rest) ← readTagPart? false text
          if part.isEmpty then some (['!'], rest)
          else
            let tag ← handles.expand? ['!'] part
            return (tag, rest)

/-- What is said about a node before the node. -/
structure Properties where
  anchor : Option Text := none
  tag : Option Text := none
deriving DecidableEq, Repr

namespace Properties

/-- Whether nothing is said. -/
def isEmpty (properties : Properties) : Bool := properties.anchor.isNone && properties.tag.isNone

/-- All that is said in two places, unless the same is said twice. -/
def merge? (a b : Properties) : Option Properties :=
  if (a.anchor.isSome && b.anchor.isSome) || (a.tag.isSome && b.tag.isSome) then none
  else some ⟨a.anchor <|> b.anchor, a.tag <|> b.tag⟩

/-- The node of which nothing but the properties is written. -/
def emptyNode (properties : Properties) : Node := .scalar .plain properties.tag []

/-- A node with one more tag. The exclamation mark alone is no tag, and only the tags
of scalars are kept. -/
def apply (properties : Properties) : Node → Node
  | .scalar style tag text =>
      .scalar style (properties.tag.filter (· != ['!']) <|> tag) text
  | node => node

end Properties

/-- A number of at most nine digits and what follows. -/
def readVersionPart? (text : Text) : Option (Nat × Text) :=
  let digits := text.takeWhile Char.isDigit
  if digits.isEmpty ∨ digits.length > 9 then none
  else some (decimalValue digits, text.dropWhile Char.isDigit)

/-- What the directives of a document say. -/
structure Directives where
  hasVersion : Bool := false
  /-- The handles that are defined. -/
  handles : Handles := []

/-- The handles of a document with directives. -/
def Directives.allHandles (directives : Directives) : Handles :=
  directives.handles ++ Handles.standard

/-- The version that a document declares, and what follows. -/
def readVersion? (text : Text) : Option Text := do
  let (major, rest) ← readVersionPart? text
  match rest with
  | '.' :: rest =>
      let (minor, rest) ← readVersionPart? rest
      if major = 1 ∧ (minor = 1 ∨ minor = 2) then some rest else none
  | _ => none

/-- The definition of a handle, and what follows. -/
def readHandleDefinition? (text : Text) : Option (Text × Text × Text) := do
  let (handle, rest) ←
    match text with
    | '!' :: rest => readHandle? rest <|> (if startsGap rest then some (['!'], rest) else none)
    | _ => none
  match rest with
  | c :: _ =>
      if !isBlank c then none
      else
        let (meaning, rest) ← readTagPart? true (rest.dropWhile isBlank)
        if meaning.isEmpty ∨ !startsGap rest then none else some (handle, meaning, rest)
  | [] => none

/-- A directive after its percent sign, and what follows. -/
def readDirective? (directives : Directives) (text : Text) : Option (Directives × Text) := do
  let name := text.takeWhile isWordChar
  let rest := text.dropWhile isWordChar
  let arguments := rest.dropWhile isBlank
  let (directives, rest) ←
    if !startsGap rest then none
    else if name = "YAML".toList then
      if directives.hasVersion then none
      else (readVersion? arguments).map fun rest => ({ directives with hasVersion := true }, rest)
    else if name = "TAG".toList then do
      let (handle, meaning, rest) ← readHandleDefinition? arguments
      if (directives.handles.lookup handle).isSome then none
      else some ({ directives with handles := (handle, meaning) :: directives.handles }, rest)
    else none
  if endsLine (rest.dropWhile isBlank) then some (directives, rest) else none

end AddonIndex.Yaml
