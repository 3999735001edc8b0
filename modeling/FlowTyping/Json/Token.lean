import FlowTyping.Json.Basic

/-!
Tokens of a document. Scanning is strict: no comments, no bare control
characters, no numbers outside the grammar.
-/

namespace FlowTyping

namespace Json

/-- A lexical unit. A text with an unpaired surrogate has no content. -/
inductive Token where
  | openBrace | closeBrace | openBracket | closeBracket | comma | colon
  | null
  | bool (value : Bool)
  | num (value : Numeral)
  | text (content : Option String)
  deriving DecidableEq, Repr

namespace Token

/-- What a string is written with: characters, and code units given in
hexadecimal. -/
inductive Part where
  | char (c : Char)
  | unit (value : Nat)
  deriving DecidableEq, Repr

def isBlank (c : Char) : Bool := c = ' ' || c = '\t' || c = '\n' || c = '\r'

def hexDigit? (c : Char) : Option Nat :=
  if '0' ≤ c ∧ c ≤ '9' then some (c.toNat - '0'.toNat)
  else if 'a' ≤ c ∧ c ≤ 'f' then some (c.toNat - 'a'.toNat + 10)
  else if 'A' ≤ c ∧ c ≤ 'F' then some (c.toNat - 'A'.toNat + 10)
  else none

def hexUnit? (a b c d : Char) : Option Nat := do
  let a ← hexDigit? a
  let b ← hexDigit? b
  let c ← hexDigit? c
  let d ← hexDigit? d
  return 4096 * a + 256 * b + 16 * c + d

def escaped? (c : Char) : Option Char :=
  if c = '"' || c = '\\' || c = '/' then some c
  else if c = 'b' then some '\x08'
  else if c = 'f' then some '\x0c'
  else if c = 'n' then some '\n'
  else if c = 'r' then some '\r'
  else if c = 't' then some '\t'
  else none

/-- Reads a string up to its closing quote. -/
def readParts : List Char → Option (List Part × List Char)
  | [] => none
  | '"' :: rest => some ([], rest)
  | '\\' :: 'u' :: a :: b :: c :: d :: rest => do
      let unit ← hexUnit? a b c d
      let (parts, rest) ← readParts rest
      return (.unit unit :: parts, rest)
  | '\\' :: c :: rest => do
      let c ← escaped? c
      let (parts, rest) ← readParts rest
      return (.char c :: parts, rest)
  | c :: rest => do
      if c.toNat < 0x20 || c = '\\' then none
      else
        let (parts, rest) ← readParts rest
        return (.char c :: parts, rest)

def isLeading (n : Nat) : Bool := 0xD800 ≤ n && n < 0xDC00

def isTrailing (n : Nat) : Bool := 0xDC00 ≤ n && n < 0xE000

/-- The characters of a string, surrogate pairs joined. An unpaired surrogate
leaves none. -/
def joinParts : List Part → Option (List Char)
  | [] => some []
  | .char c :: rest => (joinParts rest).map (c :: ·)
  | .unit high :: .unit low :: rest =>
      if isLeading high && isTrailing low then
        (joinParts rest).map
          (Char.ofNat (0x10000 + 0x400 * (high - 0xD800) + (low - 0xDC00)) :: ·)
      else if isLeading high || isTrailing high then none
      else (joinParts (.unit low :: rest)).map (Char.ofNat high :: ·)
  | .unit n :: rest =>
      if isLeading n || isTrailing n then none
      else (joinParts rest).map (Char.ofNat n :: ·)

def isDigit (c : Char) : Bool := '0' ≤ c && c ≤ '9'

def digitValues (cs : List Char) : List Nat := cs.map fun c => c.toNat - '0'.toNat

/-- The longest run of digits, which must not be empty, and what follows. -/
def readDigits (s : List Char) : Option (List Nat × List Char) :=
  match s.takeWhile isDigit with
  | [] => none
  | digits => some (digitValues digits, s.dropWhile isDigit)

/-- The exponent of a numeral, if one is written. -/
def readExponent : List Char → Option (Option Int × List Char)
  | [] => some (none, [])
  | c :: rest =>
      if c = 'e' || c = 'E' then do
        let (negative, rest) :=
          match rest with
          | '-' :: rest => (true, rest)
          | '+' :: rest => (false, rest)
          | rest => (false, rest)
        let (digits, rest) ← readDigits rest
        let n : Int := Numeral.ofDigits digits
        return (some (if negative then -n else n), rest)
      else some (none, c :: rest)

/-- The digits after the point of a numeral, if one is written. -/
def readFraction : List Char → Option (List Nat × List Char)
  | '.' :: rest => readDigits rest
  | rest => some ([], rest)

/-- The digits before the point: a zero, or digits that start with none. -/
def readWhole : List Char → Option (List Nat × List Char)
  | '0' :: rest => some ([0], rest)
  | rest => readDigits rest

def readNumeral (negative : Bool) (s : List Char) : Option (Numeral × List Char) := do
  let (whole, rest) ← readWhole s
  let (fraction, rest) ← readFraction rest
  let (exponent, rest) ← readExponent rest
  return (⟨negative, whole, fraction, exponent⟩, rest)

/-- The token at the start of a text. -/
def next? : List Char → Option (Token × List Char)
  | [] => none
  | '\x7b' :: rest => some (.openBrace, rest)
  | '\x7d' :: rest => some (.closeBrace, rest)
  | '[' :: rest => some (.openBracket, rest)
  | ']' :: rest => some (.closeBracket, rest)
  | ',' :: rest => some (.comma, rest)
  | ':' :: rest => some (.colon, rest)
  | '"' :: rest =>
      (readParts rest).map fun (parts, rest) =>
        (.text ((joinParts parts).map String.ofList), rest)
  | 'n' :: 'u' :: 'l' :: 'l' :: rest => some (.null, rest)
  | 't' :: 'r' :: 'u' :: 'e' :: rest => some (.bool true, rest)
  | 'f' :: 'a' :: 'l' :: 's' :: 'e' :: rest => some (.bool false, rest)
  | '-' :: rest => (readNumeral true rest).map fun (n, rest) => (.num n, rest)
  | rest => (readNumeral false rest).map fun (n, rest) => (.num n, rest)

/-- The tokens of a text of at most `fuel` characters. -/
def scanWithin : Nat → List Char → Option (List Token)
  | 0, s => if s.isEmpty then some [] else none
  | _ + 1, [] => some []
  | fuel + 1, c :: rest =>
      if isBlank c then scanWithin fuel rest
      else do
        let (token, rest) ← next? (c :: rest)
        let tokens ← scanWithin fuel rest
        return token :: tokens

/-- The tokens of a text. Each takes at least one character, so the length of the
text bounds their number. -/
def scan (s : List Char) : Option (List Token) := scanWithin s.length s

def escapeChar (c : Char) : List Char :=
  if c = '"' then ['\\', '"']
  else if c = '\\' then ['\\', '\\']
  else if c = '\x08' then ['\\', 'b']
  else if c = '\x0c' then ['\\', 'f']
  else if c = '\n' then ['\\', 'n']
  else if c = '\r' then ['\\', 'r']
  else if c = '\t' then ['\\', 't']
  else if c.toNat < 0x20 then
    ['\\', 'u', '0', '0', Nat.digitChar (c.toNat / 16), Nat.digitChar (c.toNat % 16)]
  else [c]

/-- A string between quotes, with quotes, backslashes and control characters
escaped. -/
def quote (s : String) : List Char := '"' :: (s.toList.flatMap escapeChar ++ ['"'])

/-- The spelling of a token. A text without content is an unpaired surrogate. -/
def spelling : Token → List Char
  | .openBrace => ['\x7b']
  | .closeBrace => ['\x7d']
  | .openBracket => ['[']
  | .closeBracket => [']']
  | .comma => [',']
  | .colon => [':']
  | .null => ['n', 'u', 'l', 'l']
  | .bool true => ['t', 'r', 'u', 'e']
  | .bool false => ['f', 'a', 'l', 's', 'e']
  | .num n => n.text
  | .text (some content) => quote content
  | .text none => ['"', '\\', 'u', 'd', '8', '0', '0', '"']

end Token

end Json

end FlowTyping
