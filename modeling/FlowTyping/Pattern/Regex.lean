import FlowTyping.Pattern.CharClass

/-!
Regular expressions and the texts they match. Matching follows the positions that
can be reached in a text, so it never has to choose.
-/

namespace FlowTyping

/-- Conditions on a position of a text. -/
inductive Look where
  | textStart | textEnd
  | lineStart | lineEnd
  | lineStartCrlf | lineEndCrlf
  | boundary (unicode : Bool) | notBoundary (unicode : Bool)
  | wordStart (unicode : Bool) | wordEnd (unicode : Bool)
  | wordStartHalf (unicode : Bool) | wordEndHalf (unicode : Bool)
  deriving DecidableEq, Repr

inductive Regex where
  | empty
  | chars (members : CharClass)
  | look (condition : Look)
  | cat (a b : Regex)
  | alt (a b : Regex)
  | repeated (body : Regex) (least : Nat) (most : Option Nat)
  deriving DecidableEq, Repr, Inhabited

namespace Look

private def isWordAt (unicode : Bool) : Option Char → Bool
  | none => false
  | some c =>
      if unicode then Text.isWord c
      else c.isAlphanum || c = '_'

/-- Whether the condition holds between the character before a position and the one
after it. -/
def holds (previous next : Option Char) : Look → Bool
  | textStart => previous.isNone
  | textEnd => next.isNone
  | lineStart => previous.isNone || previous = some '\n'
  | lineEnd => next.isNone || next = some '\n'
  | lineStartCrlf =>
      previous.isNone || previous = some '\n' || (previous = some '\r' && next ≠ some '\n')
  | lineEndCrlf =>
      next.isNone || next = some '\r' || (next = some '\n' && previous ≠ some '\r')
  | boundary u => isWordAt u previous != isWordAt u next
  | notBoundary u => isWordAt u previous == isWordAt u next
  | wordStart u => !isWordAt u previous && isWordAt u next
  | wordEnd u => isWordAt u previous && !isWordAt u next
  | wordStartHalf u => !isWordAt u previous
  | wordEndHalf u => !isWordAt u next

end Look

namespace Regex

/-- Positions without repetition: those of `a`, then the new ones of `b`. -/
def mergePositions (a b : List Nat) : List Nat := a ++ b.filter fun p => !a.contains p

/-- Adds the positions reached by one more round, at most `fuel` times. -/
def saturate (round : List Nat → List Nat) : Nat → List Nat → List Nat
  | 0, ps => ps
  | fuel + 1, ps => saturate round fuel (mergePositions ps (round ps))

/-- Rounds that must all be taken. No position is left once there was none. -/
def iterate (round : List Nat → List Nat) : Nat → List Nat → List Nat
  | 0, ps => ps
  | n + 1, ps => if ps.isEmpty then ps else iterate round n (round ps)

/-- The positions at which a match can end that starts at one of the given ones. -/
def ends (text : Array Char) : Regex → List Nat → List Nat
  | empty, ps => ps
  | chars members, ps =>
      ps.filterMap fun p =>
        match text[p]? with
        | some c => if members.mem c then some (p + 1) else none
        | none => none
  | look condition, ps =>
      ps.filter fun p =>
        condition.holds (if p = 0 then none else text[p - 1]?) text[p]?
  | cat a b, ps => ends text b (ends text a ps)
  | alt a b, ps => mergePositions (ends text a ps) (ends text b ps)
  | repeated body least most, ps =>
      let round := ends text body
      let start := iterate round least ps
      match most with
      | none => saturate round (text.size + 1) start
      | some most => saturate round (min (most - least) (text.size + 1)) start

/-- Whether some part of the text matches. -/
def isMatch (r : Regex) (text : String) : Bool :=
  let chars := text.toList.toArray
  !(ends chars r (List.range (chars.size + 1))).isEmpty

/-- Whether a match can only be empty. -/
def isZeroWidth : Regex → Bool
  | empty => true
  | chars _ => false
  | look _ => true
  | cat a b => isZeroWidth a && isZeroWidth b
  | alt a b => isZeroWidth a && isZeroWidth b
  | repeated body _ most => isZeroWidth body || most = some 0

/-- A repetition; one of nothing but conditions is needed at most once. -/
def repeatOf (body : Regex) (least : Nat) (most : Option Nat) : Regex :=
  if body.isZeroWidth then repeated body (min least 1) (some (min (most.getD 1) 1))
  else repeated body least most

private def classWeight (c : CharClass) : Nat :=
  if c.isWide then
    match c with
    | .range low high => if low = high then 96 else 320
    | .decimalDigit => 4000
    | .whiteSpace => 800
    | _ => 24000
  else 32

/-- The memory that an expanded expression takes, in bytes. -/
def weight : Regex → Nat
  | empty => 32
  | chars members => classWeight members
  | look _ => 32
  | cat a b => weight a + weight b
  | alt a b => weight a + weight b + 40
  | repeated body least most =>
      match most with
      | none => max least 1 * weight body + 40
      | some most => least * weight body + (most - least) * (weight body + 40) + 32

/-- The greatest weight of an expression that is accepted. -/
def weightLimit : Nat := 10 * Nat.pow 2 20

end Regex

end FlowTyping
