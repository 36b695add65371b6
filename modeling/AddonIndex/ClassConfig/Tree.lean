import AddonIndex.Number.Binary64
import AddonIndex.Text.Basic

/-!
# Classes and assignments

The contents of a config: classes, which may extend another class and contain
classes and assignments themselves, and assignments of values to names. Names
are looked up without regard to the case of ASCII letters, and of several
entries of one name the first one is found.
-/

namespace AddonIndex.ClassConfig

/-- The right-hand side of an assignment. -/
inductive Value
  | string (text : Text)
  | number (value : Binary64)
  | array (items : List Value)
  /-- The text of an expression. -/
  | raw (text : Text)
deriving Repr, Inhabited

namespace Value

/-- The text of a string or an expression. -/
def text? : Value → Option Text
  | string text => some text
  | raw text => some text
  | _ => none

/-- The value of a number. -/
def number? : Value → Option Binary64
  | number value => some value
  | _ => none

end Value

/-- An assignment. `isArray` tells whether the name is followed by brackets, and
`appends` whether the value is added to an inherited array. -/
structure Assignment where
  name : Text
  isArray : Bool
  appends : Bool
  value : Value
deriving Repr, Inhabited

/-- A class with what it contains, each kind in the order of the text. -/
structure ConfigClass where
  name : Text
  base : Option Text
  classes : List ConfigClass
  assignments : List Assignment
deriving Repr, Inhabited

/-- What stands between the braces of a class, or in a whole text. -/
structure Body where
  classes : List ConfigClass := []
  assignments : List Assignment := []
deriving Repr, Inhabited

/-- The first class of a name. -/
def classNamed? (classes : List ConfigClass) (name : Text) : Option ConfigClass :=
  classes.find? fun c => Text.sameIgnoringCase c.name name

/-- The first assignment to a name. -/
def assignmentNamed? (assignments : List Assignment) (name : Text) : Option Assignment :=
  assignments.find? fun a => Text.sameIgnoringCase a.name name

/-- Go down through nested classes by a list of names, of which there is at
least one. -/
def classAt? (classes : List ConfigClass) : List Text → Option ConfigClass
  | [] => none
  | [name] => classNamed? classes name
  | name :: next :: rest =>
      match classNamed? classes name with
      | some found => classAt? found.classes (next :: rest)
      | none => none

/-- The class at a path of names between slashes. Empty names are skipped. -/
def findClass? (classes : List ConfigClass) (path : Text) : Option ConfigClass :=
  classAt? classes ((path.split (· == '/')).filter (· ≠ []))

end AddonIndex.ClassConfig
