import FlowTyping.Pattern.Regex

/-!
Reading regular expressions from their source. The grammar has groups, flags,
bracketed classes with set operations, counted repetition and conditions on
positions; it has neither look-around nor back-references.
-/

namespace FlowTyping

namespace Pattern

/-- Switches that an expression can set for the rest of its group. -/
structure Flags where
  caseless : Bool := false
  multiLine : Bool := false
  dotAll : Bool := false
  unicode : Bool := true
  extended : Bool := false
  crlf : Bool := false
  deriving DecidableEq, Repr

/-- What is left of the source, the group names met so far, and the flags in force. -/
structure Cursor where
  rest : List Char
  names : List (List Char)
  flags : Flags

abbrev Reading := StateT Cursor Option

/-- The source without the blanks and comments at its start. -/
def dropBlanks : Bool → List Char → List Char
  | _, [] => []
  | true, c :: rest => dropBlanks (c ≠ '\n') rest
  | false, c :: rest =>
      if Text.isWhiteSpace c then dropBlanks false rest
      else if c = '#' then dropBlanks true rest
      else c :: rest

def peek : Reading (Option Char) := return (← get).rest.head?

def flags : Reading Flags := return (← get).flags

def setFlags (flags : Flags) : Reading Unit := modify fun c => { c with flags }

/-- Passes one character. -/
def pass : Reading Unit := modify fun c => { c with rest := c.rest.drop 1 }

/-- Passes blanks and comments where they are ignored. -/
def passBlanks : Reading Unit :=
  modify fun c => if c.flags.extended then { c with rest := dropBlanks false c.rest } else c

/-- Passes one character and the ignored blanks after it. -/
def step : Reading Unit := do
  pass
  passBlanks

/-- Passes a text if the source goes on with it. -/
def passIf (expected : List Char) : Reading Bool := do
  let c ← get
  if expected.isPrefixOf c.rest then
    set { c with rest := c.rest.drop expected.length }
    return true
  else return false

/-- The next character, which must be there. -/
def current : Reading Char := do
  match ← peek with
  | some c => return c
  | none => failure

/-- Passes characters of a kind, each with the ignored blanks after it. -/
def takeSteps (keep : Char → Bool) : Nat → Reading (List Char)
  | 0 => return []
  | fuel + 1 => do
      match ← peek with
      | some c =>
          if keep c then
            step
            return c :: (← takeSteps keep fuel)
          else return []
      | none => return []

def remaining : Reading Nat := return (← get).rest.length

def takeAll (keep : Char → Bool) : Reading (List Char) := do takeSteps keep (← remaining)

def isDecimal (c : Char) : Bool := '0' ≤ c && c ≤ '9'

private def hexValue? (c : Char) : Option Nat :=
  if isDecimal c then some (c.toNat - '0'.toNat)
  else if 'a' ≤ c ∧ c ≤ 'f' then some (c.toNat - 'a'.toNat + 10)
  else if 'A' ≤ c ∧ c ≤ 'F' then some (c.toNat - 'A'.toNat + 10)
  else none

/-- A count of 32 bits, with blanks around it. -/
def readCount : Reading Nat := do
  modify fun c => { c with rest := c.rest.dropWhile Text.isWhiteSpace }
  let digits ← takeAll isDecimal
  modify fun c =>
    if (c.rest.head?.map Text.isWhiteSpace).getD false then
      { c with rest := c.rest.dropWhile Text.isWhiteSpace }
    else c
  passBlanks
  let n := digits.foldl (fun n d => 10 * n + (d.toNat - '0'.toNat)) 0
  if digits.isEmpty || Nat.pow 2 32 ≤ n then failure
  return n

/-- What an escape or a plain character stands for. -/
inductive Atom where
  | literal (c : Char)
  | byte (c : Char)
  | members (c : CharClass)
  | condition (l : Look)

def charOfHex (digits : List Char) : Reading Char := do
  let some values := digits.mapM hexValue? | failure
  let n := values.foldl (fun n d => 16 * n + d) 0
  if values.isEmpty || !n.isValidChar then failure
  return Char.ofNat n

def readHexDigits : Nat → Reading (List Char)
  | 0 => return []
  | n + 1 => do
      let c ← current
      step
      return c :: (← readHexDigits n)

/-- A character by its code point, after `x`, `u` or `U`. -/
def readHex : Reading Atom := do
  let kind ← current
  step
  if (← current) = '\x7b' then
    step
    let digits ← takeAll (· ≠ '\x7d')
    if (← current) ≠ '\x7d' then failure
    step
    return .literal (← charOfHex digits)
  else
    let width := if kind = 'x' then 2 else if kind = 'u' then 4 else 8
    let c ← charOfHex (← readHexDigits width)
    return if kind = 'x' then .byte c else .literal c

private def splitAtMark (name : List Char) : Option (List Char × Bool × List Char) :=
  let rec notEqual : List Char → List Char → Option (List Char × Bool × List Char)
    | before, '!' :: '=' :: after => some (before.reverse, true, after)
    | before, c :: after => notEqual (c :: before) after
    | _, [] => none
  let splitBy := fun (mark : Char) =>
    if name.contains mark then
      some (name.takeWhile (· ≠ mark), false, (name.dropWhile (· ≠ mark)).drop 1)
    else none
  (notEqual [] name).or ((splitBy ':').or (splitBy '='))

/-- The class of a property, if that was found and classes may have such members. -/
def propertyMembers (negated : Bool) (found : Option CharClass) : Reading CharClass := do
  let flags ← flags
  match found with
  | some members =>
      if !flags.unicode then failure
      let members := if flags.caseless then members.fold else members
      return if negated then members.negate else members
  | none => failure

/-- A class by a property of its members, after `p` or `P`. -/
def readProperty : Reading CharClass := do
  let negated := (← current) = 'P'
  step
  let c ← current
  let found ←
    if c = '\x7b' then do
      step
      let name ← takeAll (· ≠ '\x7d')
      if (← current) ≠ '\x7d' then failure
      pass
      match splitAtMark name with
      | some (property, unequal, value) =>
          pure ((CharClass.ofPropertyValue? property value).map fun c =>
            if unequal then c.negate else c)
      | none => pure (CharClass.ofPropertyName? name)
    else do
      if c = '\\' then failure
      step
      pure (CharClass.ofPropertyName? [c])
  propertyMembers negated found

private def isMeta (c : Char) : Bool :=
  ['\\', '.', '+', '*', '?', '(', ')', '|', '[', ']', '\x7b', '\x7d', '^', '$', '#', '&',
    '-', '~'].contains c

/-- Whether a character may follow a backslash and then stands for itself. -/
def isEscapable (c : Char) : Bool :=
  isMeta c || (c.toNat ≤ 0x7F && !c.isAlphanum && c ≠ '<' && c ≠ '>')

private def shorthand (flags : Flags) (c : Char) : Option CharClass :=
  let named := fun unicode (ascii : String) =>
    if flags.unicode then unicode else (CharClass.ofAsciiName? ascii).getD .none
  match c.toLower with
  | 'd' => some (named .decimalDigit "digit")
  | 's' => some (named .whiteSpace "space")
  | 'w' => some (named .word "word")
  | _ => none

/-- The special boundary in braces after `b`, if that is what the braces hold. -/
def readBoundary : Reading Atom := do
  let unicode := (← flags).unicode
  let isName := fun (c : Char) => c.isAlpha || c = '-'
  let start ← get
  if (← peek) ≠ some '\x7b' then return .condition (.boundary unicode)
  step
  if !isName (← current) then
    set start
    return .condition (.boundary unicode)
  let name ← takeAll isName
  if (← current) ≠ '\x7d' then failure
  pass
  match String.ofList name with
  | "start" => return .condition (.wordStart unicode)
  | "end" => return .condition (.wordEnd unicode)
  | "start-half" => return .condition (.wordStartHalf unicode)
  | "end-half" => return .condition (.wordEndHalf unicode)
  | _ => failure

/-- What follows a backslash. -/
def readEscape : Reading Atom := do
  pass
  let c ← current
  let flags ← flags
  if c = 'x' || c = 'u' || c = 'U' then readHex
  else if c = 'p' || c = 'P' then return .members (← readProperty)
  else
    pass
    if let some members := shorthand flags c then
      return .members (if c.isUpper then members.negate else members)
    if isEscapable c then return .literal c
    match c with
    | 'a' => return .literal '\x07'
    | 'f' => return .literal '\x0c'
    | 't' => return .literal '\t'
    | 'n' => return .literal '\n'
    | 'r' => return .literal '\r'
    | 'v' => return .literal '\x0b'
    | 'A' => return .condition .textStart
    | 'z' => return .condition .textEnd
    | 'b' => readBoundary
    | 'B' => return .condition (.notBoundary flags.unicode)
    | '<' => return .condition (.wordStart flags.unicode)
    | '>' => return .condition (.wordEnd flags.unicode)
    | _ => failure

/-- Operations between the parts of a bracketed class. -/
inductive SetOp where
  | intersection | difference | symmetricDifference

private def SetOp.apply : SetOp → CharClass → CharClass → CharClass
  | intersection, a, b => a.inter b
  | difference, a, b => a.diff b
  | symmetricDifference, a, b => a.symmetricDiff b

private def foldIf (flags : Flags) (c : CharClass) : CharClass :=
  if flags.caseless then c.fold else c

private def combine (flags : Flags) (pending : Option (SetOp × CharClass))
    (items : CharClass) : CharClass :=
  match pending with
  | none => items
  | some (op, lhs) => op.apply (foldIf flags lhs) (foldIf flags items)

/-- An ASCII class by the name up to `:]`, and what follows it. -/
def namedClass? (negated : Bool) (rest : List Char) : Option (CharClass × List Char) :=
  match rest.dropWhile (· ≠ ':') with
  | ':' :: ']' :: after =>
      (CharClass.ofAsciiName? (String.ofList (rest.takeWhile (· ≠ ':')))).map fun c =>
        (if negated then c.negate else c, after)
  | _ => none

/-- A named ASCII class between `[:` and `:]`, and what follows it. -/
def asciiClass? : List Char → Option (CharClass × List Char)
  | '[' :: ':' :: '^' :: rest => namedClass? true rest
  | '[' :: ':' :: rest => namedClass? false rest
  | _ => none

def readSetAtom : Reading Atom := do
  let c ← current
  if c = '\\' then readEscape
  else
    pass
    return .literal c

def setLiteral (flags : Flags) : Atom → Reading Char
  | .literal c => if !flags.unicode && 0x7F < c.toNat then failure else return c
  | .byte c => if !flags.unicode && 0x7F < c.toNat then failure else return c
  | _ => failure

/-- The character after the next one, past ignored blanks. -/
def peekAfter : Reading (Option Char) := do
  let c ← get
  let after := c.rest.drop 1
  return (if c.flags.extended then dropBlanks false after else after).head?

/-- A character, a range or a class inside brackets. -/
def readSetItem : Reading CharClass := do
  let first ← readSetAtom
  passBlanks
  let flags ← flags
  let c ← current
  let after ← peekAfter
  if c ≠ '-' || after = some ']' || after = some '-' then
    match first with
    | .members members => return members
    | other => return .single (← setLiteral flags other)
  else
    step
    let last ← do
      discard current
      readSetAtom
    let low ← setLiteral flags first
    let high ← setLiteral flags last
    if high < low then failure
    return .range low.toNat high.toNat

def passHyphens : Nat → CharClass → Reading CharClass
  | 0, items => return items
  | fuel + 1, items => do
      if (← current) = '-' then
        step
        passHyphens fuel (items.union (.single '-'))
      else return items

/-- The opening bracket of a class, with the hyphens or the closing bracket that
stand for themselves there, and whether the class is negated. -/
def readSetOpen : Reading (Bool × CharClass) := do
  step
  let negated := (← current) = '^'
  if negated then step
  discard current
  let items ← passHyphens (← remaining) .none
  if items = .none && (← current) = ']' then
    step
    discard current
    return (negated, .single ']')
  return (negated, items)

/-- The rest of a bracketed class, given what has been read of it. -/
def readSetRest : Nat → Bool → CharClass → Option (SetOp × CharClass) → Reading CharClass
  | 0, _, _, _ => failure
  | fuel + 1, negated, items, pending => do
      passBlanks
      let flags ← flags
      let cursor ← get
      let operator := fun op => do
        modify fun c => { c with rest := c.rest.drop 2 }
        readSetRest fuel negated .none (some (op, combine flags pending items))
      match cursor.rest with
      | [] => failure
      | '[' :: _ =>
          match asciiClass? cursor.rest with
          | some (members, after) => do
              set { cursor with rest := after }
              readSetRest fuel negated (items.union members) pending
          | none => do
              let (innerNegated, innerItems) ← readSetOpen
              let inner ← readSetRest fuel innerNegated innerItems none
              readSetRest fuel negated (items.union inner) pending
      | ']' :: _ => do
          pass
          let members := foldIf flags (combine flags pending items)
          let members := if negated then members.negate else members
          if !flags.unicode && members.isWide then failure
          return members
      | '&' :: '&' :: _ => operator .intersection
      | '-' :: '-' :: _ => operator .difference
      | '~' :: '~' :: _ => operator .symmetricDifference
      | _ => do
          let item ← readSetItem
          readSetRest fuel negated (items.union item) pending

def readSet : Reading CharClass := do
  let fuel ← remaining
  let (negated, items) ← readSetOpen
  readSetRest fuel negated items none

private def literalRegex (flags : Flags) (c : Char) : Regex :=
  if flags.caseless then
    if flags.unicode then .chars (CharClass.single c).fold
    else .chars ((CharClass.single c).fold.inter .ascii)
  else .chars (.single c)

/-- The expression of an atom outside brackets. -/
def atomRegex (flags : Flags) : Atom → Reading Regex
  | .literal c => return literalRegex flags c
  | .byte c =>
      if !flags.unicode && 0x7F < c.toNat then failure else return literalRegex flags c
  | .members members =>
      if !flags.unicode && members.isWide then failure else return .chars members
  | .condition l => return .look l

def dotRegex (flags : Flags) : Reading Regex := do
  if !flags.unicode then failure
  let without := fun (cs : List Char) =>
    cs.foldl (fun acc c => CharClass.diff acc (.single c)) .any
  return .chars
    (if flags.dotAll then .any
      else if flags.crlf then without ['\r', '\n']
      else without ['\n'])

def lineStartLook (flags : Flags) : Look :=
  if !flags.multiLine then .textStart
  else if flags.crlf then .lineStartCrlf
  else .lineStart

def lineEndLook (flags : Flags) : Look :=
  if !flags.multiLine then .textEnd
  else if flags.crlf then .lineEndCrlf
  else .lineEnd

/-- A part of a sequence, the depth of its nesting, and whether it can be repeated. -/
structure Piece where
  regex : Regex
  depth : Nat
  repeatable : Bool

def sequenceOf (pieces : List Piece) : Regex × Nat :=
  match pieces.reverse with
  | [] => (.empty, 0)
  | [only] => (only.regex, only.depth)
  | first :: rest =>
      (rest.foldl (fun acc p => .cat acc p.regex) first.regex,
        1 + (first :: rest).foldl (fun d p => max d p.depth) 0)

def choiceOf (branches : List (Regex × Nat)) : Regex × Nat :=
  match branches.reverse with
  | [] => (.empty, 0)
  | [only] => only
  | first :: rest =>
      (rest.foldl (fun acc b => .alt acc b.1) first.1,
        1 + (first :: rest).foldl (fun d b => max d b.2) 0)

private def setFlag (flags : Flags) (c : Char) (value : Bool) : Option Flags :=
  match c with
  | 'i' => some { flags with caseless := value }
  | 'm' => some { flags with multiLine := value }
  | 's' => some { flags with dotAll := value }
  | 'U' => some flags
  | 'u' => some { flags with unicode := value }
  | 'R' => some { flags with crlf := value }
  | 'x' => some { flags with extended := value }
  | _ => none

/-- The flags written up to a colon or a closing parenthesis, applied to those in
force. Each may occur once. -/
def readFlags : Nat → List Char → Flags → Reading (Flags × List Char)
  | 0, _, _ => failure
  | fuel + 1, seen, flags => do
      let c ← current
      if c = ':' || c = ')' then
        if seen.head? = some '-' then failure
        return (flags, seen)
      if seen.contains c then failure
      pass
      if c = '-' then readFlags fuel (c :: seen) flags
      else
        match setFlag flags c (!seen.contains '-') with
        | some flags => readFlags fuel (c :: seen) flags
        | none => failure

private def isNameChar (first : Bool) (c : Char) : Bool :=
  c = '_' || Text.isAlphabetic c ||
    (!first &&
      (c = '.' || c = '[' || c = ']' ||
        match Text.category c with
        | .digit | .letterNumber | .otherNumber => true
        | _ => false))

/-- The name of a group, up to its closing angle bracket. -/
def readName : Reading Unit := do
  let cursor ← get
  let name := cursor.rest.takeWhile (· ≠ '>')
  let valid := match name with
    | [] => false
    | first :: rest => isNameChar true first && rest.all (isNameChar false)
  if !valid || cursor.names.contains name || name.length = cursor.rest.length then failure
  set { cursor with
    rest := cursor.rest.drop (name.length + 1)
    names := name :: cursor.names }

/-- Whether an opening parenthesis starts a group, or only sets flags. -/
inductive Opening where
  | group
  | flagsOnly

/-- The opening of a group, whose flags are then in force. -/
def readOpening : Reading Opening := do
  step
  for form in ["?=", "?!", "?<=", "?<!"] do
    if form.toList.isPrefixOf (← get).rest then failure
  let named ← passIf ['?', 'P', '<']
  let named ← if named then pure true else passIf ['?', '<']
  if named then
    readName
    return .group
  if ← passIf ['?'] then
    let (flags, seen) ← readFlags ((← remaining) + 1) [] (← flags)
    let close ← current
    pass
    if close = ')' && seen.isEmpty then failure
    setFlags flags
    return if close = ')' then .flagsOnly else .group
  return .group

/-- The bounds in braces of a counted repetition. -/
def readBounds : Reading (Nat × Option Nat) := do
  step
  discard current
  let least ← readCount
  let most ← if (← current) = ',' then do
      step
      if (← current) = '\x7d' then pure none
      else pure (some (← readCount))
    else pure (some least)
  if (← current) ≠ '\x7d' then failure
  step
  if let some most := most then
    if most < least then failure
  return (least, most)

/-- The bounds of the repetition at the cursor, if there is one. A mark for lazy
matching belongs to it. -/
def readRepetition : Reading (Option (Nat × Option Nat)) := do
  let bounds ← match ← peek with
    | some '?' => do
        pass
        pure (some (0, some 1))
    | some '*' => do
        pass
        pure (some (0, none))
    | some '+' => do
        pass
        pure (some (1, none))
    | some '\x7b' => pure (some (← readBounds))
    | _ => pure none
  if bounds.isSome then
    discard (passIf ['?'])
  return bounds

/-- The deepest nesting that is accepted. -/
def depthLimit : Nat := 250

/-- The branches up to a closing parenthesis or the end, given the pieces of the
current branch and the branches before it, last ones first. -/
def readBranches : Nat → List Piece → List (Regex × Nat) → Reading (Regex × Nat)
  | 0, _, _ => failure
  | fuel + 1, pieces, branches => do
      passBlanks
      let add := fun piece => readBranches fuel (piece :: pieces) branches
      match ← peek with
      | none => return choiceOf (sequenceOf pieces :: branches)
      | some ')' => return choiceOf (sequenceOf pieces :: branches)
      | some '|' => do
          pass
          readBranches fuel [] (sequenceOf pieces :: branches)
      | some '(' => do
          let outer ← flags
          match ← readOpening with
          | .flagsOnly => add ⟨.empty, 0, false⟩
          | .group => do
              let (regex, depth) ← readBranches fuel [] []
              if (← current) ≠ ')' then failure
              pass
              setFlags outer
              add ⟨regex, depth + 1, true⟩
      | some '[' => do
          let members ← readSet
          add ⟨.chars members, 1, true⟩
      | some '.' => do
          let regex ← dotRegex (← flags)
          pass
          add ⟨regex, 0, true⟩
      | some '^' => do
          pass
          add ⟨.look (lineStartLook (← flags)), 0, true⟩
      | some '$' => do
          pass
          add ⟨.look (lineEndLook (← flags)), 0, true⟩
      | some '\\' => do
          let atom ← readEscape
          let regex ← atomRegex (← flags) atom
          add ⟨regex, 0, true⟩
      | some c => do
          match ← readRepetition with
          | some (least, most) =>
              match pieces with
              | piece :: before =>
                  if !piece.repeatable then failure
                  readBranches fuel
                    (⟨.repeatOf piece.regex least most, piece.depth + 1, true⟩ :: before) branches
              | [] => failure
          | none => do
              pass
              let regex ← atomRegex (← flags) (.literal c)
              add ⟨regex, 0, true⟩

/-- The expression of a source, if it follows the grammar and is neither too deep nor
too large. -/
def read? (source : String) : Option Regex := do
  let chars := source.toList
  let ((regex, depth), cursor) ← (readBranches (chars.length + 1) [] []).run ⟨chars, [], {}⟩
  if cursor.rest.isEmpty && depth ≤ depthLimit && regex.weight ≤ Regex.weightLimit then
    some regex
  else none

end Pattern

end FlowTyping
