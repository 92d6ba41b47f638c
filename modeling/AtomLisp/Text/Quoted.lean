/-!
# Quoted text

A text between double quotes, with the characters that would not show as themselves written as
escapes. Values and scopes are described to a developer in this form.
-/

namespace AtomLisp.Text

/-- The digits of a number in base sixteen, in lower case and without leading zeros. -/
def hexDigits (n : Nat) : String :=
  String.ofList (Nat.toDigits 16 n)

/-- A control character is one below the space, the delete character, or one from 80 to 9f. -/
def isControl (c : Char) : Bool :=
  c.toNat < 0x20 || (0x7F ≤ c.toNat && c.toNat ≤ 0x9F)

/-- The written form of one character: quote and backslash are escaped, four control characters
have a letter of their own, every other one is given by its code point, and the rest stand for
themselves. -/
def escape (c : Char) : String :=
  if c = '"' then "\\\""
  else if c = '\\' then "\\\\"
  else if c = '\t' then "\\t"
  else if c = '\n' then "\\n"
  else if c = '\r' then "\\r"
  else if c.toNat = 0 then "\\0"
  else if isControl c then "\\u\x7b" ++ hexDigits c.toNat ++ "\x7d"
  else c.toString

/-- The text between double quotes, every character in its written form. -/
def quoted (text : String) : String :=
  "\"" ++ String.join (text.toList.map escape) ++ "\""

end AtomLisp.Text
