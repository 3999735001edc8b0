import FlowTyping.Text.Quoted

/-!
Why a declaration is refused.
-/

namespace FlowTyping

inductive DeclarationError where
  | duplicateQualifier (name : String)
  | unknownQualifier (name context : String)
  | cyclicSubtyping (name : String)
  | emptyHierarchy
  | noUniqueTop (maximal : List String)
  | noUniqueBottom (minimal : List String)
  | noUniqueJoin (a b : String) (candidates : List String)
  | noUniqueMeet (a b : String) (candidates : List String)
  | invalidPattern (pattern : String)
  | emptyRange (low high : Int)
  | contradictoryRules (pattern first second : String)
  | duplicateSignature (method : String)
  | targetOutOfRange (method : String) (index arity : Nat)
  | duplicateField (field : String)
  | malformed
  deriving DecidableEq, Repr

namespace DeclarationError

private def listed (names : List String) : String := Text.join ", " names

def message : DeclarationError → String
  | duplicateQualifier name => s!"qualifier `{name}` is declared more than once"
  | unknownQualifier name context => s!"`{context}` refers to unknown qualifier `{name}`"
  | cyclicSubtyping name => s!"subtype declarations form a cycle through `{name}`"
  | emptyHierarchy => "hierarchy declares no qualifiers"
  | noUniqueTop maximal =>
      "hierarchy has no unique top; maximal qualifiers: " ++ listed maximal
  | noUniqueBottom minimal =>
      "hierarchy has no unique bottom; minimal qualifiers: " ++ listed minimal
  | noUniqueJoin a b candidates =>
      s!"`{a}` and `{b}` have no unique least upper bound (candidates: {listed candidates})"
  | noUniqueMeet a b candidates =>
      s!"`{a}` and `{b}` have no unique greatest lower bound (candidates: {listed candidates})"
  | invalidPattern pattern => s!"invalid string pattern `{pattern}`"
  | emptyRange low high => s!"integer range [{low}, {high}] is empty"
  | contradictoryRules pattern first second =>
      s!"implicit rules for pattern {pattern} disagree: `{first}` vs `{second}`"
  | duplicateSignature method => s!"method `{method}` has more than one signature"
  | targetOutOfRange method index arity =>
      s!"postcondition of `{method}` targets argument {index}, but it takes {arity}"
  | duplicateField field => s!"field `{field}` is declared more than once"
  | malformed => "malformed declaration"

end DeclarationError

end FlowTyping
