import FlowTyping.Checker.Declaration
import FlowTyping.Checker.Implicit

/-!
Checkers: declarations resolved against their own hierarchy. A declaration with any
inconsistency gives no checker.
-/

namespace FlowTyping

structure Checker where
  name : String
  hierarchy : Hierarchy
  implicit : ImplicitRules
  signatures : SignatureTable
  refinesEquality : Bool

namespace Checker

def resolveHierarchy (d : CheckerDeclaration) : Except DeclarationError Hierarchy :=
  Hierarchy.build (d.qualifiers.map QualifierDeclaration.name)
    (d.qualifiers.flatMap fun q => q.supertypes.map fun above => (q.name, above))

def resolvePattern : PatternDeclaration → Except DeclarationError RulePattern
  | .fullMatch source => RulePattern.ofSource source
  | .intRange low high => RulePattern.ofRange low high
  | .literal kind => .ok (.literal kind)
  | .element kind => .ok (.element kind)
  | .any => .ok .any

def resolveRule (h : Hierarchy) (d : RuleDeclaration) : Except DeclarationError ImplicitRule := do
  let qualifier ← h.resolve d.qualifier "implicit rule"
  let pattern ← resolvePattern d.pattern
  return ⟨pattern, qualifier⟩

def insertSignature (h : Hierarchy) (t : SignatureTable) (s : MethodSignature String) :
    Except DeclarationError SignatureTable := do
  let context := s!"signature of `{s.name}`"
  let resolved ← s.resolve fun name => h.resolve name context
  t.insert resolved

def declareField (h : Hierarchy) (t : SignatureTable) (d : FieldDeclaration) :
    Except DeclarationError SignatureTable := do
  let qualifier ← h.resolve d.qualifier s!"field `{d.name}`"
  t.declareField d.name qualifier

/-- The checker of a declaration, or the first reason why there is none. -/
def ofDeclaration (d : CheckerDeclaration) : Except DeclarationError Checker := do
  let h ← resolveHierarchy d
  let rules ← d.implicit.mapM (resolveRule h)
  let implicit ← ImplicitRules.build rules h
  let methods ← d.signatures.foldlM (insertSignature h) .empty
  let signatures ← d.fields.foldlM (declareField h) methods
  return {
    name := d.name.getD "checker"
    hierarchy := h
    implicit, signatures
    refinesEquality := d.refinesEquality }

/-- The checker that a text declares. -/
def ofText (text : String) : Except DeclarationError Checker := do
  let d ← declared CheckerDeclaration.read? text
  ofDeclaration d

end Checker

end FlowTyping
