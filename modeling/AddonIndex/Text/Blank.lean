import AddonIndex.Text.Basic

/-!
# Blank characters

The characters with the Unicode property `White_Space`, and trimming by it.
-/

namespace AddonIndex

/-- The code points of the Unicode property `White_Space`. -/
def blankCodePoints : List Nat :=
  [0x09, 0x0A, 0x0B, 0x0C, 0x0D, 0x20, 0x85, 0xA0, 0x1680,
   0x2000, 0x2001, 0x2002, 0x2003, 0x2004, 0x2005, 0x2006, 0x2007, 0x2008, 0x2009, 0x200A,
   0x2028, 0x2029, 0x202F, 0x205F, 0x3000]

/-- Whether a character has the Unicode property `White_Space`. -/
def isBlank (c : Char) : Bool := blankCodePoints.contains c.toNat

namespace Text

/-- The text without its leading blanks. -/
def trimStart (text : Text) : Text := text.dropWhile isBlank

/-- The text without its trailing blanks. -/
def trimEnd (text : Text) : Text := dropEndWhile isBlank text

/-- The text without its leading and trailing blanks. -/
def trim (text : Text) : Text := trimEnd (trimStart text)

end Text

theorem isBlank_lineFeed : isBlank '\n' = true := by decide

theorem isBlank_carriageReturn : isBlank '\r' = true := by decide

end AddonIndex
