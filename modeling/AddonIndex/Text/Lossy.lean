import AddonIndex.Text.Basic

/-!
# Reading bytes that may be no text

Bytes that are the UTF-8 form of no text are still read: each longest beginning
of a character that is not completed, and each byte that begins no character,
counts as one replacement character.
-/

namespace AddonIndex

/-- What stands for bytes that are no text. -/
def replacementChar : Char := '\uFFFD'

/-- A character that has begun: the bits so far, the bytes that are missing, and the
bounds for the next byte. -/
structure OpenChar where
  bits : Nat
  missing : Nat
  low : Nat
  high : Nat
deriving DecidableEq, Repr

namespace OpenChar

/-- Begin with a byte: a complete character, an open one, or no character at
all. -/
def start (byte : Nat) : Text × Option OpenChar :=
  if byte < 0x80 then ([Char.ofNat byte], none)
  else if byte < 0xC2 then ([replacementChar], none)
  else if byte < 0xE0 then ([], some ⟨byte - 0xC0, 1, 0x80, 0xBF⟩)
  else if byte < 0xF0 then
    ([], some ⟨byte - 0xE0, 2, if byte = 0xE0 then 0xA0 else 0x80,
      if byte = 0xED then 0x9F else 0xBF⟩)
  else if byte < 0xF5 then
    ([], some ⟨byte - 0xF0, 3, if byte = 0xF0 then 0x90 else 0x80,
      if byte = 0xF4 then 0x8F else 0xBF⟩)
  else ([replacementChar], none)

/-- Go on with a byte. -/
def step (state : Option OpenChar) (byte : Nat) : Text × Option OpenChar :=
  match state with
  | none => start byte
  | some c =>
      if c.low ≤ byte ∧ byte ≤ c.high then
        let bits := 64 * c.bits + (byte - 0x80)
        if c.missing ≤ 1 then ([Char.ofNat bits], none)
        else ([], some ⟨bits, c.missing - 1, 0x80, 0xBF⟩)
      else
        let (text, next) := start byte
        (replacementChar :: text, next)

/-- The text of the remaining bytes. -/
def read (state : Option OpenChar) : List UInt8 → Text
  | [] => if state.isSome then [replacementChar] else []
  | byte :: rest =>
      let (text, next) := step state byte.toNat
      text ++ read next rest

end OpenChar

/-- The text of bytes, with replacement characters for what is no text. -/
def Text.decodeLossy (bytes : ByteArray) : Text := OpenChar.read none bytes.toList

end AddonIndex
