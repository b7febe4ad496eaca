import SoundChange.Order

/-!
# JSON texts

Strings, arrays and objects written as JSON in one line without blanks. In a string the quotation
mark, the backslash and the control characters below the space are written as escapes, the common
ones by a letter and the others by four hexadecimal digits; all else stands for itself.
-/

namespace SoundChange.Text.Json

/-- The hexadecimal digit of a number below sixteen. -/
def hexDigit (n : Nat) : Char := Nat.digitChar n

/-- A character of a string. -/
def escape (c : Char) : Text :=
  if c = '"' then ['\\', '"']
  else if c = '\\' then ['\\', '\\']
  else if c = '\x08' then ['\\', 'b']
  else if c = '\x0c' then ['\\', 'f']
  else if c = '\n' then ['\\', 'n']
  else if c = '\r' then ['\\', 'r']
  else if c = '\t' then ['\\', 't']
  else if c.toNat < 0x20 then
    ['\\', 'u', '0', '0', hexDigit (c.toNat / 16), hexDigit (c.toNat % 16)]
  else [c]

/-- A text as a string. -/
def string (t : Text) : Text := '"' :: t.flatMap escape ++ ['"']

/-- Several texts with commas between them. -/
def commaSeparated (items : List Text) : Text := (items.intersperse [',']).flatten

/-- The array of some values. -/
def array (items : List Text) : Text := '[' :: commaSeparated items ++ [']']

/-- The object of some keys and values. -/
def object (fields : List (Text × Text)) : Text :=
  '\x7b' :: commaSeparated (fields.map fun (key, value) => string key ++ ':' :: value) ++ ['\x7d']

end SoundChange.Text.Json
