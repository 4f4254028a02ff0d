import ChunkMachine.Text.Printable

set_option relaxedAutoImplicit false
set_option autoImplicit false

/-!
# Quoted text

Text between double quotes, in two forms: one for people, in which every character that is not
visible on its own is escaped, and the form of a JSON string.

## Main definitions

* `Text.quoted` — the form for people.
* `Text.jsonString` — the form of JSON.
-/

namespace ChunkMachine.Text

/-- The lower-case hexadecimal digits of a number, without zeros in front. -/
def hexDigits (n : Nat) : List Char := Nat.toDigits 16 n

/-- A character inside quoted text. Some have a short escape, those that are not visible on their
own show their number, and all others stand for themselves. -/
def quotedChar (c : Char) : List Char :=
  if c = '"' then ['\\', '"']
  else if c = '\\' then ['\\', '\\']
  else if c = '\n' then ['\\', 'n']
  else if c = '\r' then ['\\', 'r']
  else if c = '\t' then ['\\', 't']
  else if c = '\x00' then ['\\', '0']
  else if isPrintable c then [c]
  else ['\\', 'u', '\x7b'] ++ hexDigits c.toNat ++ ['\x7d']

/-- A text between quotes, with the characters escaped that are not visible on their own. -/
def quoted (cs : List Char) : String := String.ofList ('"' :: cs.flatMap quotedChar ++ ['"'])

/-- A character inside a JSON string. Only quotes, backslashes and control characters need an
escape. -/
def jsonChar (c : Char) : List Char :=
  if c = '"' then ['\\', '"']
  else if c = '\\' then ['\\', '\\']
  else if c = '\x08' then ['\\', 'b']
  else if c = '\t' then ['\\', 't']
  else if c = '\n' then ['\\', 'n']
  else if c = '\x0c' then ['\\', 'f']
  else if c = '\r' then ['\\', 'r']
  else if c.toNat < 0x20 then ['\\', 'u'] ++ (hexDigits c.toNat).leftpad 4 '0'
  else [c]

/-- A text as a JSON string, quotes included. -/
def jsonString (cs : List Char) : String := String.ofList ('"' :: cs.flatMap jsonChar ++ ['"'])

end ChunkMachine.Text
