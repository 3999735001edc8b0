import FlowTyping.Json.Token

/-!
Writing documents: on one line without blanks, and with one item or field a line.
-/

namespace FlowTyping

namespace Json

mutual

/-- The tokens of a document. -/
def tokens : Json → List Token
  | .null => [.null]
  | .bool b => [.bool b]
  | .num n => [.num n]
  | .str s => [.text (some s)]
  | .arr items => .openBracket :: (itemTokens items ++ [.closeBracket])
  | .obj fields => .openBrace :: (fieldTokens fields ++ [.closeBrace])
  | .unreadable => [.text none]

def itemTokens : List Json → List Token
  | [] => []
  | [v] => tokens v
  | v :: rest => tokens v ++ .comma :: itemTokens rest

def fieldTokens : List (String × Json) → List Token
  | [] => []
  | [(k, v)] => .text (some k) :: .colon :: tokens v
  | (k, v) :: rest => .text (some k) :: .colon :: (tokens v ++ .comma :: fieldTokens rest)

end

/-- The document on one line. -/
def compact (v : Json) : String := String.ofList (v.tokens.flatMap Token.spelling)

def indent (depth : Nat) : List Char := '\n' :: List.replicate (2 * depth) ' '

mutual

/-- The document with each item and field on a line of its own, two blanks deeper
than its container. -/
def prettyAt (depth : Nat) : Json → List Char
  | .arr [] => ['[', ']']
  | .arr items => '[' :: (prettyItems (depth + 1) items ++ indent depth ++ [']'])
  | .obj [] => ['\x7b', '\x7d']
  | .obj fields => '\x7b' :: (prettyFields (depth + 1) fields ++ indent depth ++ ['\x7d'])
  | .null => ['n', 'u', 'l', 'l']
  | .bool b => (Token.bool b).spelling
  | .num n => n.text
  | .str s => Token.quote s
  | .unreadable => (Token.text none).spelling

def prettyItems (depth : Nat) : List Json → List Char
  | [] => []
  | [v] => indent depth ++ prettyAt depth v
  | v :: rest => indent depth ++ prettyAt depth v ++ ',' :: prettyItems depth rest

def prettyFields (depth : Nat) : List (String × Json) → List Char
  | [] => []
  | [(k, v)] => indent depth ++ Token.quote k ++ ':' :: ' ' :: prettyAt depth v
  | (k, v) :: rest =>
      indent depth ++ Token.quote k ++ ':' :: ' ' ::
        (prettyAt depth v ++ ',' :: prettyFields depth rest)

end

def pretty (v : Json) : String := String.ofList (prettyAt 0 v)

end Json

end FlowTyping
