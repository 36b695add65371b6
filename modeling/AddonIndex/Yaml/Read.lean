import AddonIndex.Yaml.Property
import AddonIndex.Yaml.Scalar

/-!
# Reading documents

A document is read from left to right, one node after another. In a block the
column of a node tells to which collection it belongs: everything that belongs
to the value of a key stands to the right of the key, except that the items of a
sequence and the sign of a block scalar may stand in the column of the key. In a flow collection the brackets
tell it.

Nothing but `none` is answered for a text that is no single document.
-/

namespace AddonIndex.Yaml

/-- The state of reading: the place, and the nodes that have names. -/
structure Reader extends Cursor where
  handles : Handles
  /-- The named nodes, the latest first. -/
  anchors : List (Text × Node) := []

/-- A step of reading. -/
abbrev Reading := StateT Reader Option

namespace Reading

/-- Go on at another place. -/
def move (change : Cursor → Cursor) : Reading Unit :=
  modify fun reader => { reader with toCursor := change reader.toCursor }

/-- Go on with a later part of the text, where keys can stand or not. -/
def goTo (rest : Text) (keys : Bool) : Reading Unit :=
  move fun cursor => { cursor.moveTo rest with keys }

/-- Pass over one character, after which keys can stand or not. -/
def skipSign (keys : Bool) : Reading Unit :=
  move fun cursor => { cursor.advance 1 with keys }

/-- The text from here on. -/
def rest : Reading Text := return (← get).rest

/-- Go on only if a condition holds. -/
def require (condition : Bool) : Reading Unit := if condition then pure () else failure

/-- Go on with what was read off the text. -/
def take {α : Type} (keys : Bool) (read : Text → Option (α × Text)) : Reading α := do
  match read (← rest) with
  | some (value, after) =>
      goTo after keys
      return value
  | none => failure

/-- Make a name stand for a node. -/
def bindName (anchor : Text) (node : Node) : Reading Unit :=
  modify fun reader => { reader with anchors := (anchor, node) :: reader.anchors }

/-- Put a complete node in the place of the latest incomplete one of its name. What
was named inside of it stays later. -/
def complete (anchor : Text) (node : Node) : List (Text × Node) → List (Text × Node)
  | [] => []
  | (known, .enclosing place) :: rest =>
      if known = anchor then (anchor, node) :: rest
      else (known, .enclosing place) :: complete anchor node rest
  | entry :: rest => entry :: complete anchor node rest

/-- Give a complete node its name. -/
def name (properties : Properties) (node : Node) : Reading Node := do
  match properties.anchor with
  | some anchor =>
      modify fun reader => { reader with anchors := complete anchor node reader.anchors }
      return node
  | none => return node

/-- Give a node its tag and its name. -/
def attach (properties : Properties) (node : Node) : Reading Node :=
  name properties (properties.apply node)

/-- The node of which only the properties are written. -/
def attachEmpty (properties : Properties) : Reading Node := name properties properties.emptyNode

/-- Whether a property begins with a character. -/
def startsProperty (text : Text) : Bool := text.head? == some '&' || text.head? == some '!'

/-- One property. Until the node that it belongs to is complete, its name stands
for a node around the place where the name is used. -/
def property (flow : Bool) : Reading Properties := do
  match ← rest with
  | '&' :: _ =>
      skipSign false
      let anchor ← take false readName?
      bindName anchor (.enclosing anchor)
      return ⟨some anchor, none⟩
  | '!' :: _ =>
      skipSign false
      let tag ← take false (readTag? (← get).handles)
      let after ← rest
      require (startsGap after || (flow && after.head? == some ','))
      return ⟨none, some tag⟩
  | _ => failure

/-- The properties of a node, at most one of each kind, with blanks between them,
and in a flow collection any gaps. -/
def properties (flow : Bool) : Reading Properties := do
  let pass : Reading Unit := move fun cursor => if flow then cursor.skipGaps true else cursor.skipBlanks
  if !startsProperty (← rest) then return {}
  let first ← property flow
  pass
  if !startsProperty (← rest) then return first
  let second ← property flow
  pass
  match first.merge? second with
  | some both => return both
  | none => failure

/-- A scalar in quotes, an alias, or a plain scalar. -/
def scalar (flow : Bool) (margin : Nat) : Reading Node := do
  match ← rest with
  | '*' :: _ =>
      skipSign false
      let anchor ← take false readName?
      match (← get).anchors.lookup anchor with
      | some node => return node
      | none => failure
  | '\'' :: _ =>
      skipSign false
      return .scalar .singleQuoted none (← take false (readSingleQuoted .nothing))
  | '"' :: _ =>
      skipSign false
      return .scalar .doubleQuoted none (← take false (readDoubleQuoted (.words .nothing)))
  | text =>
      require (startsPlain flow text)
      match readPlain flow margin .nothing text with
      | some (value, after, keys) =>
          goTo after keys
          return .scalar .plain none value
      | none => failure
where
  /-- Whether a plain scalar can begin with a text. -/
  startsPlain (flow : Bool) (text : Text) : Bool :=
    match text with
    | [] => false
    | c :: rest =>
        if c == '-' then !startsGap rest
        else if c == '?' || c == ':' then !flow && !startsGap rest
        else !isGap c && !leadingMarks.contains c

/-- Whether a colon here ends the key that began at `start`. A colon that ends no
key is an error. -/
def closesKey (flow : Bool) (start : Cursor) : Reading Bool := do
  let reader ← get
  let isColon := if flow then reader.rest.head? == some ':' else startsSign ':' reader.rest
  if !isColon then return false
  else
    if !flow && reader.line != start.line then return false
    require (reader.closesKey start)
    return true

mutual

/-- A node inside a flow collection. -/
def flowNode (margin : Nat) : Nat → Reading Node
  | 0 => failure
  | fuel + 1 => do
      require !(← get).isFinal
      let own ← properties true
      require !(← get).isFinal
      let text ← rest
      if !own.isEmpty ∧ (text.head?.any fun c => [',', ':', ']', '\x7d'].contains c) then
        attachEmpty own
      else
        require !(text.head? == some '*' && !own.isEmpty)
        attach own (← inlineNode true margin fuel)

/-- A scalar, an alias or a flow collection. -/
def inlineNode (flow : Bool) (margin : Nat) : Nat → Reading Node
  | 0 => failure
  | fuel + 1 => do
      match ← rest with
      | '[' :: _ =>
          skipSign true
          return .sequence (← flowItems margin [] fuel)
      | '\x7b' :: _ =>
          skipSign true
          return .mapping (← flowEntries margin [] fuel)
      | _ => scalar flow margin

/-- The value in a flow collection after its key: nothing, or a node after a
colon. -/
def flowValue (margin : Nat) (close : Char) : Nat → Reading Node
  | 0 => failure
  | fuel + 1 => do
      if (← rest).head? != some ':' then return .empty
      skipSign false
      move (·.skipGaps true)
      match ← rest with
      | c :: _ => if c = ',' ∨ c = close then return .empty else flowNode margin fuel
      | [] => failure

/-- The items of a flow sequence up to its closing bracket. An item can be a single
key with its value. -/
def flowItems (margin : Nat) (items : List Node) : Nat → Reading (List Node)
  | 0 => failure
  | fuel + 1 => do
      move (·.skipGaps true)
      if (← rest).head? = some ']' then
        skipSign false
        return items
      let item ← flowItem margin fuel
      move (·.skipGaps true)
      match ← rest with
      | ',' :: _ =>
          skipSign true
          flowItems margin (items ++ [item]) fuel
      | ']' :: _ =>
          skipSign false
          return items ++ [item]
      | _ => failure

/-- An item of a flow sequence. -/
def flowItem (margin : Nat) : Nat → Reading Node
  | 0 => failure
  | fuel + 1 => do
      let start := (← get).toCursor
      if start.rest.head? = some '?' then
        skipSign false
        move (·.skipGaps true)
        let key ← flowNode margin fuel
        move (·.skipGaps true)
        return .mapping [(key, ← flowValue margin ']' fuel)]
      else
        let node ← flowNode margin fuel
        move (·.skipGaps true)
        if ← closesKey true start then return .mapping [(node, ← flowValue margin ']' fuel)]
        else return node

/-- The entries of a flow mapping up to its closing brace. -/
def flowEntries (margin : Nat) (entries : List (Node × Node)) : Nat → Reading (List (Node × Node))
  | 0 => failure
  | fuel + 1 => do
      move (·.skipGaps true)
      if (← rest).head? = some '\x7d' then
        skipSign false
        return entries
      let entry ← flowEntry margin fuel
      move (·.skipGaps true)
      match ← rest with
      | ',' :: _ =>
          skipSign true
          flowEntries margin (entries ++ [entry]) fuel
      | '\x7d' :: _ =>
          skipSign false
          return entries ++ [entry]
      | _ => failure

/-- An entry of a flow mapping. -/
def flowEntry (margin : Nat) : Nat → Reading (Node × Node)
  | 0 => failure
  | fuel + 1 => do
      let start := (← get).toCursor
      if start.rest.head? = some '?' then
        skipSign false
        move (·.skipGaps true)
        let isOmitted := (← rest).head?.any fun c => [',', ':', '\x7d'].contains c
        let key ← if isOmitted then pure .empty else flowNode margin fuel
        move (·.skipGaps true)
        return (key, ← flowValue margin '\x7d' fuel)
      else
        let key ← flowNode margin fuel
        move (·.skipGaps true)
        if ← closesKey true start then return (key, ← flowValue margin '\x7d' fuel)
        else return (key, .empty)

end

/-- A node that can be a key, after its properties. It can be empty if it has
properties. An alias has none. -/
def keyNode (margin : Nat) (own : Properties) (fuel : Nat) : Reading Node := do
  let text ← rest
  if !own.isEmpty ∧ startsSign ':' text then attachEmpty own
  else
    require (own.isEmpty || text.head? != some '*')
    let node ← attach own (← inlineNode false margin fuel)
    move (·.skipBlanks)
    return node

mutual

/-- A node in a block whose parts begin at `margin` or further right. The sign of a
block scalar can stand one column before that, and with `compact` so can the items
of a sequence. What is said about the node on lines before it is given. -/
def blockNode (margin : Nat) (compact : Bool) (outer : Properties) : Nat → Reading Node
  | 0 => failure
  | fuel + 1 => do
      move (·.skipGaps false)
      let start := (← get).toCursor
      if start.isFinal then attachEmpty outer
      else if start.column < margin then
        if start.column + 1 ≠ margin then attachEmpty outer
        else if compact ∧ startsSign '-' start.rest then
          require start.keys
          attach outer (.sequence (← blockItems start.column true [] fuel))
        else
          match start.rest with
          | '|' :: _ => blockScalar outer {} .literal
          | '>' :: _ => blockScalar outer {} .folded
          | _ => attachEmpty outer
      else if startsSign '-' start.rest then
        require start.keys
        attach outer (.sequence (← blockItems start.column false [] fuel))
      else if startsSign '?' start.rest then
        attach outer (.mapping (← blockEntries start.column [] fuel))
      else
        let own ← properties false
        let text ← rest
        match text with
        | '|' :: _ => blockScalar outer own .literal
        | '>' :: _ => blockScalar outer own .folded
        | _ =>
            if !own.isEmpty ∧ endsLine text then
              match outer.merge? own with
              | some both => blockNode margin compact both fuel
              | none => failure
            else
              let node ← keyNode margin own fuel
              if ← closesKey false start then
                let value ← blockValue start.column fuel
                attach outer (.mapping (← blockEntries start.column [(node, value)] fuel))
              else
                require (outer.isEmpty || (text.head? != some '*' && (outer.merge? own).isSome))
                attach outer node
termination_by structural fuel => fuel
where
  /-- A block scalar from its sign on. -/
  blockScalar (outer own : Properties) (style : ScalarStyle) : Reading Node := do
    skipSign false
    let value ← take true (readBlock (style == .folded) margin)
    match outer.merge? own with
    | some both => attach both (.scalar style none value)
    | none => failure

/-- The value of a key in a given column, from the colon on. -/
def blockValue (column : Nat) : Nat → Reading Node
  | 0 => failure
  | fuel + 1 => do
      skipSign false
      blockNode (column + 1) true {} fuel
termination_by structural fuel => fuel

/-- The items of a sequence whose signs stand in a column. A compact sequence ends
where no sign stands in the column. -/
def blockItems (column : Nat) (compact : Bool) (items : List Node) : Nat → Reading (List Node)
  | 0 => failure
  | fuel + 1 => do
      move (·.skipGaps false)
      let start := (← get).toCursor
      if start.isFinal ∨ start.column < column then return items
      else if start.column = column ∧ startsSign '-' start.rest then
        require start.keys
        skipSign true
        let item ← blockNode (column + 1) false {} fuel
        blockItems column compact (items ++ [item]) fuel
      else
        require (compact && start.column == column)
        return items
termination_by structural fuel => fuel

/-- The entries of a mapping whose keys stand in a column. -/
def blockEntries (column : Nat) (entries : List (Node × Node)) : Nat → Reading (List (Node × Node))
  | 0 => failure
  | fuel + 1 => do
      move (·.skipGaps false)
      let start := (← get).toCursor
      if start.isFinal ∨ start.column < column then return entries
      else
        require (start.column == column && start.keys)
        if startsSign '?' start.rest then
          skipSign true
          let key ← blockNode (column + 1) true {} fuel
          move (·.skipGaps false)
          let here := (← get).toCursor
          if !here.isFinal ∧ here.column = column ∧ startsSign ':' here.rest then
            require here.keys
            skipSign true
            let value ← blockNode (column + 1) true {} fuel
            blockEntries column (entries ++ [(key, value)]) fuel
          else blockEntries column (entries ++ [(key, .empty)]) fuel
        else
          let key ← keyNode (column + 1) (← properties false) fuel
          require (← closesKey false start)
          let value ← blockValue column fuel
          blockEntries column (entries ++ [(key, value)]) fuel
termination_by structural fuel => fuel

end

/-- The separators after a document, and nothing else. -/
def ending : Nat → Reading Unit
  | 0 => failure
  | fuel + 1 => do
      move (·.skipGaps false)
      let here := (← get).toCursor
      if here.rest.isEmpty then return ()
      require (here.column == 0 && isMarker '.' here.rest)
      goTo (here.rest.drop 3) false
      ending fuel

/-- The directives before a document. -/
def directives (found : Directives) : Nat → Reading Directives
  | 0 => failure
  | fuel + 1 => do
      move (·.skipGaps false)
      match (← get).column, ← rest with
      | 0, '%' :: _ =>
          skipSign false
          let found ← take false (readDirective? found)
          directives found fuel
      | _, _ => return found

/-- A document. -/
def document (fuel : Nat) : Reading Node := do
  let found ← directives {} fuel
  modify fun reader => { reader with handles := found.allHandles }
  let here := (← get).toCursor
  let node ←
    if here.column = 0 ∧ isMarker '-' here.rest then do
      goTo (here.rest.drop 3) false
      blockNode 0 false {} fuel
    else do
      require (!found.hasVersion && found.handles.isEmpty)
      require !(here.column == 0 && isMarker '.' here.rest)
      blockNode 0 false {} fuel
  ending fuel
  return node

end Reading

/-- The content of a text that is a single document. A byte order mark in front
is passed over. -/
def read? (text : Text) : Option Node :=
  let body := match text with
    | '\uFEFF' :: body => body
    | _ => text
  if body.all isAllowed then
    (Reading.document (4 * body.length + 8) |>.run { rest := body, handles := Handles.standard }).map
      Prod.fst
  else none

end AddonIndex.Yaml
