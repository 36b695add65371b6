import AddonIndex.Text.Basic
import AddonIndex.Text.Unprintable

/-!
# Quoted characters and texts

The form in which a message shows a character or a text that it found: between
quotes, with the quote, the backslash and all characters that would not show
escaped. A character stands between apostrophes, a text between double quotes.
-/

namespace AddonIndex

/-- One character of quoted text, where `quote` is the mark around the text. -/
def escapeChar (quote c : Char) : Text :=
  if c = '\x00' then ['\\', '0']
  else if c = '\t' then ['\\', 't']
  else if c = '\n' then ['\\', 'n']
  else if c = '\r' then ['\\', 'r']
  else if c = '\\' then ['\\', '\\']
  else if c = quote then ['\\', c]
  else if isUnprintable c then
    ['\\', 'u', '\x7b'] ++ Nat.toDigits 16 c.toNat ++ ['\x7d']
  else [c]

/-- A character between apostrophes. -/
def quoteChar (c : Char) : Text :=
  ['\''] ++ escapeChar '\'' c ++ ['\'']

/-- A text between double quotes. -/
def quoteText (text : Text) : Text :=
  ['"'] ++ text.flatMap (escapeChar '"') ++ ['"']

end AddonIndex
