import FlowTyping.Flow.Transfer
import FlowTyping.Graph.Node
import FlowTyping.Json.Shape

/-!
Diagnostics: places where the qualifier found is not a subtype of the required one.
-/

namespace FlowTyping

inductive DiagnosticKind where
  | assignment | argument | receiver | returned | cast
  deriving DecidableEq, Repr

namespace DiagnosticKind

def all : List DiagnosticKind := [assignment, argument, receiver, returned, cast]

def tag : DiagnosticKind → String
  | assignment => "assignment_incompatible"
  | argument => "argument_incompatible"
  | receiver => "receiver_incompatible"
  | returned => "return_incompatible"
  | cast => "unsafe_cast"

def text : DiagnosticKind → String
  | assignment => "incompatible assignment"
  | argument => "incompatible argument"
  | receiver => "incompatible receiver"
  | returned => "incompatible return value"
  | cast => "unsafe cast"

def read? (v : Json) : Option DiagnosticKind := v.name? (all.map fun k => (k.tag, k))

def write (k : DiagnosticKind) : Json := .str k.tag

end DiagnosticKind

/-- A mismatch at a node. The subject names what was checked. -/
structure Diagnostic where
  kind : DiagnosticKind
  block : BlockId
  node : NodeId
  found : String
  required : String
  subject : String
  deriving DecidableEq, Repr

namespace Diagnostic

def read? (v : Json) : Option Diagnostic := do
  let r ← v.record? ["kind", "block", "node", "found", "required", "subject"]
  return {
    kind := ← Json.required DiagnosticKind.read? (r "kind")
    block := ← Json.required Json.unsigned? (r "block")
    node := ← Json.required Json.unsigned? (r "node")
    found := ← Json.required Json.string? (r "found")
    required := ← Json.required Json.string? (r "required")
    subject := ← Json.required Json.string? (r "subject") }

def write (d : Diagnostic) : Json :=
  .obj [("kind", d.kind.write), ("block", .nat d.block), ("node", .nat d.node),
    ("found", .str d.found), ("required", .str d.required), ("subject", .str d.subject)]

def text (d : Diagnostic) : String :=
  s!"block {d.block}, node {d.node}: {d.kind.text} ({d.subject}): " ++
    s!"found `{d.found}`, required `{d.required}`"

end Diagnostic

/-!
The check of computed qualifiers against declared requirements, after the fixpoint.
Only nodes with computed operands are checked.
-/

namespace Checker

/-- The diagnostic of an operand that has to respect a bound, if it does not. -/
def require (c : Checker) (values : NodeValues) (node : Node) (kind : DiagnosticKind)
    (operand : NodeId) (bound : Qualifier) (subject : String) : List Diagnostic :=
  match values.getD operand none with
  | none => []
  | some found =>
      if c.hierarchy.isSubtype found bound then []
      else [⟨kind, node.block, node.id, c.hierarchy.name found, c.hierarchy.name bound, subject⟩]

/-- The arguments of a call against the parameters that have a qualifier. -/
def checkArguments (c : Checker) (values : NodeValues) (node : Node) (method : String)
    (params : List (Option Qualifier)) (args : List NodeId) : List Diagnostic :=
  ((params.zip args).zipIdx.map fun ((param, arg), index) =>
    match param with
    | none => []
    | some bound => c.require values node .argument arg bound s!"argument {index} of {method}"
  ).flatten

/-- The diagnostics of one node. -/
def checkNode (c : Checker) (values : NodeValues) (returnBound : Option Qualifier)
    (node : Node) : Except AnalysisError (List Diagnostic) :=
  match node.kind with
  | .assign (.local var) source =>
      if (values.getD source none).isNone then .ok []
      else do
        let bound ← c.localBound node var
        return c.require values node .assignment source bound var.name
  | .assign (.field _ field) source =>
      .ok (c.require values node .assignment source (c.fieldBound field) s!"field {field}")
  | .call receiver method args =>
      match c.signatures.method? method with
      | none => .ok []
      | some signature =>
          let arguments := c.checkArguments values node method signature.params args
          match signature.receiver, receiver with
          | some bound, some id =>
              .ok (arguments ++
                c.require values node .receiver id bound s!"receiver of {method}")
          | _, _ => .ok arguments
  | .returnValue (some id) =>
      match returnBound with
      | some bound => .ok (c.require values node .returned id bound "return")
      | none => .ok []
  | .cast qualifier id => do
      let bound ← c.resolveAt node qualifier
      return c.require values node .cast id bound s!"@{qualifier}"
  | _ => .ok []

/-- The diagnostics of a graph in node order. Nodes that no path reaches count only
on request. -/
def checkGraph (c : Checker) (g : FlowGraph) (values : NodeValues)
    (returnBound : Option Qualifier) (includeUnreachable : Bool) :
    Except AnalysisError (List Diagnostic) := do
  let included := g.nodes.toList.filter fun node =>
    includeUnreachable || g.isReachable node.block
  let found ← included.mapM (c.checkNode values returnBound)
  return found.flatten

end Checker

end FlowTyping
