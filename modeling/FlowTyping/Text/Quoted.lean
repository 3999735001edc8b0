import FlowTyping.Text.Category

/-!
Quoted text: what stands between the quotes shows every character, those that
would not be visible as escapes.
-/

namespace FlowTyping

namespace Text

private def hexText (n : Nat) : List Char := Nat.toDigits 16 n

/-- The escaped form of a character between quotes of the given kind. -/
def escape (quote c : Char) : List Char :=
  if c = '\x00' then ['\\', '0']
  else if c = '\t' then ['\\', 't']
  else if c = '\n' then ['\\', 'n']
  else if c = '\r' then ['\\', 'r']
  else if c = '\\' || c = quote then ['\\', c]
  else if isGraphemeExtend c || !isPrintable c then
    ['\\', 'u', '\x7b'] ++ hexText c.toNat ++ ['\x7d']
  else [c]

/-- A string between double quotes. -/
def quoted (s : String) : String :=
  String.ofList ('"' :: (s.toList.flatMap (escape '"') ++ ['"']))

/-- A character between single quotes. -/
def quotedChar (c : Char) : String :=
  String.ofList ('\'' :: (escape '\'' c ++ ['\'']))

/-- Texts joined by a separator. -/
def join (separator : String) (parts : List String) : String :=
  separator.intercalate parts

end Text

end FlowTyping
