import AddonIndex.Text.Blank

/-!
# The marker of a cache entry

A small text of properties, one to a line. Lines that begin with `#` or `!` are
comments. An equals sign, a colon or blanks separate a key from its value. The
key `valid` tells whether the entry is complete; the last line with it counts.
-/

namespace AddonIndex.Reference

/-- Whether a character separates a key from its value. -/
def endsKey (c : Char) : Bool := c == '=' || c == ':' || isBlank c

/-- The flag that a line sets, if it sets one. -/
def lineFlag? (line : Text) : Option Bool :=
  let content := Text.trimStart line
  match content with
  | [] => none
  | first :: _ =>
      if first = '#' ∨ first = '!' then none
      else if content.takeWhile (!endsKey ·) = "valid".toList then
        let value := (Text.trimStart (content.dropWhile (!endsKey ·))).dropWhile
          fun c => c == '=' || c == ':'
        some (Text.trim value ≠ "false".toList)
      else none

/-- The flag that a marker text sets, if it sets one. A carriage return before a
line feed is a blank like any other. -/
def validFlag? (text : Text) : Option Bool :=
  text.feedLines.foldl (fun flag line => (lineFlag? line).or flag) none

/-- The marker text that sets a flag. -/
def markerText (valid : Bool) : Text :=
  "valid=".toList ++ (if valid then "true" else "false").toList ++ ['\n']

end AddonIndex.Reference
