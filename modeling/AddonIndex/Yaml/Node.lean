import AddonIndex.Text.Basic

/-!
# Nodes of YAML documents

The content of a document, and how scalars are read under the core schema.
-/

namespace AddonIndex.Yaml

/-- How a scalar is written. -/
inductive ScalarStyle
  | plain
  | singleQuoted
  | doubleQuoted
  | literal
  | folded
deriving DecidableEq, Repr, Inhabited

/-- A node of a document. -/
inductive Node
  | scalar (style : ScalarStyle) (tag : Option Text) (text : Text)
  | sequence (items : List Node)
  | mapping (entries : List (Node × Node))
  /-- A use of the name of a node inside that node. -/
  | enclosing (anchor : Text)
deriving Repr, Inhabited

/-- The node that stands where nothing is written. -/
def Node.empty : Node := .scalar .plain none []

end AddonIndex.Yaml
