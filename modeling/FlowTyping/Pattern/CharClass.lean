import FlowTyping.Text.Script
import FlowTyping.Text.CaseFold

/-!
Classes of characters in patterns: ranges, named classes, and their Boolean
combinations.
-/

namespace FlowTyping

/-- A class of characters. `fold` adds the characters that differ from a member in
case only. -/
inductive CharClass where
  | none
  | range (low high : Nat)
  | decimalDigit
  | word
  | whiteSpace
  | alphabetic
  | uppercase
  | lowercase
  | category (categories : List Text.Category)
  | script (code : String)
  | negate (c : CharClass)
  | union (a b : CharClass)
  | inter (a b : CharClass)
  | fold (c : CharClass)
  deriving DecidableEq, Repr, Inhabited

namespace CharClass

private def otherUppercase : List (Nat × Nat) :=
  [(0x2160, 0x216F), (0x24B6, 0x24CF), (0x1F130, 0x1F149), (0x1F150, 0x1F169),
    (0x1F170, 0x1F189)]

private def otherLowercase : List (Nat × Nat) :=
  [(0xAA, 0xAA), (0xBA, 0xBA), (0x2B0, 0x2B8), (0x2C0, 0x2C1), (0x2E0, 0x2E4),
    (0x345, 0x345), (0x37A, 0x37A), (0x10FC, 0x10FC), (0x1D2C, 0x1D6A), (0x1D78, 0x1D78),
    (0x1D9B, 0x1DBF), (0x2071, 0x2071), (0x207F, 0x207F), (0x2090, 0x209C),
    (0x2170, 0x217F), (0x24D0, 0x24E9), (0x2C7C, 0x2C7D), (0xA69C, 0xA69D),
    (0xA770, 0xA770), (0xA7F2, 0xA7F4), (0xA7F8, 0xA7F9), (0xAB5C, 0xAB5F),
    (0xAB69, 0xAB69), (0x10780, 0x10780), (0x10783, 0x10785), (0x10787, 0x107B0),
    (0x107B2, 0x107BA), (0x1E030, 0x1E06D)]

def mem : CharClass → Char → Bool
  | none, _ => false
  | range low high, c => low ≤ c.toNat && c.toNat ≤ high
  | decimalDigit, c => Text.isDecimalDigit c
  | word, c => Text.isWord c
  | whiteSpace, c => Text.isWhiteSpace c
  | alphabetic, c => Text.isAlphabetic c
  | uppercase, c => Text.category c = .upper || Text.inRanges otherUppercase c
  | lowercase, c => Text.category c = .lower || Text.inRanges otherLowercase c
  | category categories, c => categories.contains (Text.category c)
  | script code, c => Text.script c = code
  | negate a, c => !mem a c
  | union a b, c => mem a c || mem b c
  | inter a b, c => mem a c && mem b c
  | fold a, c => mem a c || (Text.foldPartners c.toNat).any fun n => mem a (Char.ofNat n)

def single (c : Char) : CharClass := range c.toNat c.toNat

def ranges (rs : List (Nat × Nat)) : CharClass :=
  rs.foldl (fun acc r => union acc (range r.1 r.2)) none

def ascii : CharClass := range 0 0x7F

def any : CharClass := range 0 0x10FFFF

/-- The members of `a` that are not in `b`. -/
def diff (a b : CharClass) : CharClass := inter a (negate b)

/-- The members of exactly one of two classes. -/
def symmetricDiff (a b : CharClass) : CharClass := union (diff a b) (diff b a)

/-- Whether a class has members beyond ASCII, judged by its shape. -/
def isWide : CharClass → Bool
  | none => false
  | range _ high => 0x7F < high
  | negate _ => true
  | union a b => isWide a || isWide b
  | inter a b => isWide a && isWide b
  | fold a => isWide a
  | _ => true

private def asciiClasses : List (String × List (Nat × Nat)) :=
  [("alnum", [(0x30, 0x39), (0x41, 0x5A), (0x61, 0x7A)]),
    ("alpha", [(0x41, 0x5A), (0x61, 0x7A)]),
    ("ascii", [(0, 0x7F)]),
    ("blank", [(0x9, 0x9), (0x20, 0x20)]),
    ("cntrl", [(0, 0x1F), (0x7F, 0x7F)]),
    ("digit", [(0x30, 0x39)]),
    ("graph", [(0x21, 0x7E)]),
    ("lower", [(0x61, 0x7A)]),
    ("print", [(0x20, 0x7E)]),
    ("punct", [(0x21, 0x2F), (0x3A, 0x40), (0x5B, 0x60), (0x7B, 0x7E)]),
    ("space", [(0x9, 0xD), (0x20, 0x20)]),
    ("upper", [(0x41, 0x5A)]),
    ("word", [(0x30, 0x39), (0x41, 0x5A), (0x5F, 0x5F), (0x61, 0x7A)]),
    ("xdigit", [(0x30, 0x39), (0x41, 0x46), (0x61, 0x66)])]

/-- The class of a name between `[:` and `:]`. -/
def ofAsciiName? (name : String) : Option CharClass :=
  (asciiClasses.find? fun entry => entry.1 = name).map fun entry => ranges entry.2

/-- A property name without case, blanks, hyphens, underscores and a leading `is`. -/
def normalizeName (name : List Char) : String :=
  let lowered := name.map Char.toLower
  let stem := match lowered with
    | 'i' :: 's' :: rest => rest
    | whole => whole
  String.ofList (stem.filter fun c => c ≠ ' ' && c ≠ '_' && c ≠ '-' && c.toNat ≤ 0x7F)

open Text.Category in
private def categoryNames : List (String × List Text.Category) :=
  [("l letter", [upper, lower, title, modifier, otherLetter]),
    ("lc casedletter", [upper, lower, title]),
    ("lu uppercaseletter", [upper]), ("ll lowercaseletter", [lower]),
    ("lt titlecaseletter", [title]), ("lm modifierletter", [modifier]),
    ("lo otherletter", [otherLetter]),
    ("m mark combiningmark", [nonspacing, spacing, enclosing]),
    ("mn nonspacingmark", [nonspacing]), ("mc spacingmark", [spacing]),
    ("me enclosingmark", [enclosing]),
    ("n number", [digit, letterNumber, otherNumber]),
    ("nd decimalnumber digit", [digit]), ("nl letternumber", [letterNumber]),
    ("no othernumber", [otherNumber]),
    ("p punctuation punct",
      [connector, dash, openBracket, closeBracket, openQuote, closeQuote, otherPunctuation]),
    ("pc connectorpunctuation", [connector]), ("pd dashpunctuation", [dash]),
    ("ps openpunctuation", [openBracket]), ("pe closepunctuation", [closeBracket]),
    ("pi initialpunctuation", [openQuote]), ("pf finalpunctuation", [closeQuote]),
    ("po otherpunctuation", [otherPunctuation]),
    ("s symbol", [math, currency, modifierSymbol, otherSymbol]),
    ("sm mathsymbol", [math]), ("sc currencysymbol", [currency]),
    ("sk modifiersymbol", [modifierSymbol]), ("so othersymbol", [otherSymbol]),
    ("z separator", [space, line, paragraph]),
    ("zs spaceseparator", [space]), ("zl lineseparator", [line]),
    ("zp paragraphseparator", [paragraph]),
    ("c other", [control, format, privateUse, unassigned]),
    ("cc control cntrl", [control]), ("cf format", [format]),
    ("co privateuse", [privateUse]), ("cn unassigned", [unassigned])]

private def ofCategoryName? (name : String) : Option CharClass :=
  match name with
  | "any" => some any
  | "ascii" => some ascii
  | "assigned" => some (negate (category [.unassigned]))
  | _ =>
      (categoryNames.find? fun entry => (entry.1.splitOn " ").contains name).map fun entry =>
        category entry.2

private def ofScriptName? (name : String) : Option CharClass :=
  (Text.scriptAliases.find? fun entry =>
    normalizeName entry.1.toList = name || normalizeName entry.2.toList = name).map fun entry =>
      script entry.1

private def ofBinaryName? (name : String) : Option CharClass :=
  match name with
  | "alphabetic" | "alpha" => some alphabetic
  | "uppercase" | "upper" => some uppercase
  | "lowercase" | "lower" => some lowercase
  | "whitespace" | "wspace" | "space" => some whiteSpace
  | _ => Option.none

/-- The class of a property named by itself: a binary property, a general category,
or a script. -/
def ofPropertyName? (name : List Char) : Option CharClass :=
  let name := normalizeName name
  (ofBinaryName? name).or ((ofCategoryName? name).or (ofScriptName? name))

/-- The class of the characters that have a property with a given value. -/
def ofPropertyValue? (property value : List Char) : Option CharClass :=
  let value := normalizeName value
  match normalizeName property with
  | "gc" | "generalcategory" => ofCategoryName? value
  | "sc" | "script" | "scx" | "scriptextensions" => ofScriptName? value
  | _ => Option.none

end CharClass

end FlowTyping
