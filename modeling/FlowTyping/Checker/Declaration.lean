import FlowTyping.Checker.Signature
import FlowTyping.Json.Read
import FlowTyping.Json.Write
import FlowTyping.Literal

/-!
Checker declarations: qualifiers by name with their supertypes, ordered implicit
rules, signatures and fields, as they stand in documents.
-/

namespace FlowTyping

open Json (required defaulted nullable optional? list?)

structure QualifierDeclaration where
  name : String
  supertypes : List String
  deriving DecidableEq, Repr

inductive PatternDeclaration where
  | fullMatch (source : String)
  | intRange (low high : Int)
  | literal (kind : LiteralKind)
  | element (kind : SyntaxKind)
  | any
  deriving DecidableEq, Repr

structure RuleDeclaration where
  pattern : PatternDeclaration
  qualifier : String
  deriving DecidableEq, Repr

structure FieldDeclaration where
  name : String
  qualifier : String
  deriving DecidableEq, Repr

structure CheckerDeclaration where
  name : Option String
  qualifiers : List QualifierDeclaration
  implicit : List RuleDeclaration
  signatures : List (MethodSignature String)
  fields : List FieldDeclaration
  refinesEquality : Bool
  deriving DecidableEq, Repr

namespace QualifierDeclaration

def read? (v : Json) : Option QualifierDeclaration := do
  let r ← v.record? ["name", "subtype_of"]
  return ⟨← required Json.string? (r "name"),
    ← defaulted (list? Json.string?) [] (r "subtype_of")⟩

def write (d : QualifierDeclaration) : Json :=
  .obj [("name", .str d.name), ("subtype_of", .ofList .str d.supertypes)]

end QualifierDeclaration

namespace PatternDeclaration

/-- The bounds of a range that gives none. -/
def widest : Int × Int := (-9223372036854775808, 9223372036854775807)

def read? (v : Json) : Option PatternDeclaration := do
  let (name, payload) ← v.choice?
  match name with
  | "string_pattern" => return fullMatch (← payload.bind Json.string?)
  | "int_range" =>
      let r ← payload.bind (Json.record? ["from", "to"])
      return intRange (← defaulted Json.signed? widest.1 (r "from"))
        (← defaulted Json.signed? widest.2 (r "to"))
  | "literal" => return literal (← payload.bind LiteralKind.read?)
  | "element" => return element (← payload.bind SyntaxKind.read?)
  | "any" => if payload.isNone || payload matches some .null then some any else none
  | _ => none

def write : PatternDeclaration → Json
  | fullMatch source => .tagged "string_pattern" (.str source)
  | intRange low high => .tagged "int_range" (.obj [("from", .int low), ("to", .int high)])
  | literal kind => .tagged "literal" kind.write
  | element kind => .tagged "element" kind.write
  | any => .str "any"

end PatternDeclaration

namespace RuleDeclaration

def read? (v : Json) : Option RuleDeclaration := do
  let r ← v.record? ["pattern", "qualifier"]
  return ⟨← required PatternDeclaration.read? (r "pattern"),
    ← required Json.string? (r "qualifier")⟩

def write (d : RuleDeclaration) : Json :=
  .obj [("pattern", d.pattern.write), ("qualifier", .str d.qualifier)]

end RuleDeclaration

namespace PostconditionTarget

def read? (v : Json) : Option PostconditionTarget := do
  let (name, payload) ← v.choice?
  match name with
  | "receiver" => if payload.isNone || payload matches some .null then some receiver else none
  | "argument" => return argument (← payload.bind Json.unsigned?)
  | _ => none

def write : PostconditionTarget → Json
  | receiver => .str "receiver"
  | argument index => .tagged "argument" (.nat index)

end PostconditionTarget

namespace Postcondition

def read? (v : Json) : Option (Postcondition String) := do
  let r ← v.record? ["target", "qualifier"]
  return ⟨← required PostconditionTarget.read? (r "target"),
    ← required Json.string? (r "qualifier")⟩

def write (p : Postcondition String) : Json :=
  .obj [("target", p.target.write), ("qualifier", .str p.qualifier)]

end Postcondition

namespace ConditionalPostcondition

def read? (v : Json) : Option (ConditionalPostcondition String) := do
  let r ← v.record? ["result", "target", "qualifier"]
  return ⟨← required Json.bool? (r "result"), ← required PostconditionTarget.read? (r "target"),
    ← required Json.string? (r "qualifier")⟩

def write (p : ConditionalPostcondition String) : Json :=
  .obj [("result", .bool p.result), ("target", p.target.write), ("qualifier", .str p.qualifier)]

end ConditionalPostcondition

namespace MethodSignature

def read? (v : Json) : Option (MethodSignature String) := do
  let r ← v.record?
    ["method", "params", "receiver", "returns", "pure", "ensures", "ensures_if"]
  return {
    name := ← required Json.string? (r "method")
    params := ← defaulted (list? (optional? Json.string?)) [] (r "params")
    receiver := ← nullable Json.string? (r "receiver")
    returns := ← nullable Json.string? (r "returns")
    isPure := ← defaulted Json.bool? false (r "pure")
    ensures := ← defaulted (list? Postcondition.read?) [] (r "ensures")
    ensuresIf := ← defaulted (list? ConditionalPostcondition.read?) [] (r "ensures_if") }

def write (s : MethodSignature String) : Json :=
  .obj [("method", .str s.name), ("params", .ofList (.ofOption .str) s.params),
    ("receiver", .ofOption .str s.receiver), ("returns", .ofOption .str s.returns),
    ("pure", .bool s.isPure), ("ensures", .ofList Postcondition.write s.ensures),
    ("ensures_if", .ofList ConditionalPostcondition.write s.ensuresIf)]

end MethodSignature

namespace FieldDeclaration

def read? (v : Json) : Option FieldDeclaration := do
  let r ← v.record? ["name", "qualifier"]
  return ⟨← required Json.string? (r "name"), ← required Json.string? (r "qualifier")⟩

def write (d : FieldDeclaration) : Json :=
  .obj [("name", .str d.name), ("qualifier", .str d.qualifier)]

end FieldDeclaration

namespace CheckerDeclaration

/-- Whether tests of equality refine their operands. They do unless told not to. -/
def readRefinement? (v : Json) : Option Bool := do
  let r ← v.record? ["equality"]
  defaulted Json.bool? true (r "equality")

def read? (v : Json) : Option CheckerDeclaration := do
  let r ← v.record? ["name", "qualifiers", "implicit", "signatures", "fields", "refinement"]
  return {
    name := ← nullable Json.string? (r "name")
    qualifiers := ← required (list? QualifierDeclaration.read?) (r "qualifiers")
    implicit := ← defaulted (list? RuleDeclaration.read?) [] (r "implicit")
    signatures := ← defaulted (list? MethodSignature.read?) [] (r "signatures")
    fields := ← defaulted (list? FieldDeclaration.read?) [] (r "fields")
    refinesEquality := ← defaulted readRefinement? true (r "refinement") }

def write (d : CheckerDeclaration) : Json :=
  .obj [("name", .ofOption .str d.name),
    ("qualifiers", .ofList QualifierDeclaration.write d.qualifiers),
    ("implicit", .ofList RuleDeclaration.write d.implicit),
    ("signatures", .ofList MethodSignature.write d.signatures),
    ("fields", .ofList FieldDeclaration.write d.fields),
    ("refinement", .obj [("equality", .bool d.refinesEquality)])]

end CheckerDeclaration

/-- The value that a text declares, read from its document. -/
def declared {α : Type} (read : Json → Option α) (text : String) : Except DeclarationError α :=
  match (Json.read? text).bind read with
  | some a => .ok a
  | none => .error .malformed

end FlowTyping
