import AddonIndex.Yaml.Schema

/-!
# Records

A record is a mapping whose keys are texts. Each of its known fields is given at
most once; what is given besides them is ignored. A field has a kind, and a node
of another kind is no value of it.
-/

namespace AddonIndex.Yaml

/-- The fields of a record. -/
abbrev Record := List (Text × Node)

namespace Node

/-- The text of a scalar, in whatever style. -/
def text? : Node → Option Text
  | scalar _ _ text => some text
  | _ => none

/-- Whether nothing is written at a node. -/
def isBlank : Node → Bool
  | scalar .plain _ text => text.isEmpty
  | _ => false

/-- The items of a sequence of texts. Where nothing is written there are none. -/
def texts? : Node → Option (List Text)
  | sequence items => items.mapM text?
  | node => if node.isBlank then some [] else none

/-- The text of a scalar that is read under the schema: a plain one, or a literal
one with the tag of the kind that is asked for. -/
def schemaText? (tag : Text) : Node → Option Text
  | scalar .plain _ text => some text
  | scalar .literal (some given) text => if given = tag then some text else none
  | _ => none

/-- The value of a natural number below a limit. -/
def natural? (limit : Nat) (node : Node) : Option Nat := do
  let value ← Yaml.natural? (← node.schemaText? "tag:yaml.org,2002:int")
  if value < limit then some value else none

/-- The value of a truth value. -/
def truthValue? (node : Node) : Option Bool := do
  Yaml.truthValue? (← node.schemaText? "tag:yaml.org,2002:bool")

/-- A text that can be absent: where nothing is written, or a null. A scalar with
the tag of nulls has to be one. -/
def optionalText? : Node → Option (Option Text)
  | scalar .plain (some tag) text =>
      if tag = "tag:yaml.org,2002:null".toList then (if isNull text then some none else none)
      else some (some text)
  | scalar .plain none text => some (if text.isEmpty || isNull text then none else some text)
  | scalar _ _ text => some (some text)
  | _ => none

/-- The fields of a record of which some fields are known. -/
def record? (known : List Text) : Node → Option Record
  | mapping entries => do
      let fields ← entries.mapM fun entry => entry.1.text?.map (·, entry.2)
      if ((fields.map Prod.fst).filter known.contains).Nodup then some fields else none
  | node => if node.isBlank then some [] else none

end Node

namespace Record

/-- A field with its default. -/
def field {α : Type} (record : Record) (name : Text) (read : Node → Option α) (default : α) :
    Option α :=
  match record.lookup name with
  | some node => read node
  | none => some default

/-- A field that has to be given. -/
def required {α : Type} (record : Record) (name : Text) (read : Node → Option α) : Option α :=
  (record.lookup name).bind read

end Record

end AddonIndex.Yaml
