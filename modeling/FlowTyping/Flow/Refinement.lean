import FlowTyping.Checker.Signature
import FlowTyping.Flow.Store
import FlowTyping.Graph.Node

/-!
Refinement on boolean tests: which stores hold when a node comes out true and when
it comes out false.
-/

namespace FlowTyping

/-- What a refinement reads: the node under test, the qualifiers computed for nodes,
and the keys of the expressions that nodes denote. -/
structure TestContext where
  node : Node
  hierarchy : Hierarchy
  signatures : SignatureTable
  values : Array (Option Qualifier)
  keys : Array (Option FlowKey)

namespace TestContext

/-- The qualifier of an operand, the top if none is computed. -/
def value (c : TestContext) (id : NodeId) : Qualifier :=
  (c.values.getD id none).getD c.hierarchy.top

/-- The key of an operand that a store may hold. -/
def key? (c : TestContext) (id : NodeId) : Option FlowKey :=
  (c.keys.getD id none).filter FlowKey.isRefinable

end TestContext

/-- The operand of a call that a postcondition speaks about. -/
def PostconditionTarget.operand? (receiver : Option NodeId) (args : List NodeId) :
    PostconditionTarget → Option NodeId
  | .receiver => receiver
  | .argument index => args[index]?

/-- The tests that split a store: an equality, whose operands are one value when they
are equal, and a call whose result has postconditions. -/
inductive Refinement where
  | equality
  | postcondition
  deriving DecidableEq, Repr

namespace Refinement

def name : Refinement → String
  | equality => "equality"
  | postcondition => "postcondition"

/-- The refinements in use, in the order in which they are tried. -/
def enabled (refinesEquality : Bool) : List Refinement :=
  if refinesEquality then [equality, postcondition] else [postcondition]

/-- Whether a refinement understands the shape of a node. -/
def appliesTo (signatures : SignatureTable) (kind : NodeKind) : Refinement → Bool
  | equality =>
      match kind with
      | .binary op _ _ => op.isEquality
      | _ => false
  | postcondition =>
      match kind with
      | .call _ method _ => (signatures.method? method).any fun s => !s.ensuresIf.isEmpty
      | _ => false

/-- Equal operands are narrowed to the meet of their qualifiers. -/
def splitEquality (c : TestContext) (s : Store) (op : BinOp) (lhs rhs : NodeId) :
    Option (Store × Store) :=
  let keys := (c.key? lhs).toList ++ (c.key? rhs).toList
  if keys.isEmpty then none
  else
    let common := c.hierarchy.meet (c.value lhs) (c.value rhs)
    let equal := keys.foldl (fun s key => s.refine c.hierarchy key common) s
    if op = .eq then some (equal, s) else some (s, equal)

/-- One conditional postcondition of a call, if its target is trackable. -/
def refineOutcome (c : TestContext) (receiver : Option NodeId) (args : List NodeId)
    (stores : Store × Store) (p : ConditionalPostcondition Qualifier) :
    Option (Store × Store) :=
  ((p.target.operand? receiver args).bind c.key?).map fun key =>
    if p.result then (stores.1.refine c.hierarchy key p.qualifier, stores.2)
    else (stores.1, stores.2.refine c.hierarchy key p.qualifier)

/-- All conditional postconditions of a call that have a trackable target. -/
def splitCall (c : TestContext) (s : Store) (receiver : Option NodeId) (args : List NodeId)
    (posts : List (ConditionalPostcondition Qualifier)) : Option (Store × Store) :=
  posts.foldl
    (fun found p => (refineOutcome c receiver args (found.getD (s, s)) p).or found) none

/-- The stores of the true and of the false outcome of a test. -/
def split (c : TestContext) (s : Store) : Refinement → Option (Store × Store)
  | equality =>
      match c.node.kind with
      | .binary op lhs rhs => splitEquality c s op lhs rhs
      | _ => none
  | postcondition =>
      match c.node.kind with
      | .call receiver method args =>
          (c.signatures.method? method).bind fun signature =>
            splitCall c s receiver args signature.ensuresIf
      | _ => none

/-- The result of the first refinement that understands the node and splits. -/
def refine? (refinements : List Refinement) (c : TestContext) (s : Store) :
    Option TransferResult :=
  (refinements.filter fun r => r.appliesTo c.signatures c.node.kind).findSome? fun r =>
    (r.split c s).map fun stores => .split stores.1 stores.2

end Refinement

end FlowTyping
