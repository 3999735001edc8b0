import FlowTyping.Graph.Node

/-!
Blocks of a control flow graph and the edges that leave them.
-/

namespace FlowTyping

inductive SpecialKind where
  | entry | exit | exceptionalExit | loopHead
  deriving DecidableEq, Repr

namespace SpecialKind

def name : SpecialKind → String
  | entry => "entry"
  | exit => "exit"
  | exceptionalExit => "exceptional-exit"
  | loopHead => "loop-head"

def isExit : SpecialKind → Bool
  | exit | exceptionalExit => true
  | _ => false

end SpecialKind

/-- A conditional block is empty and routes on the last node of its only
predecessor. An exceptional block holds one node that may raise; it has no normal
successor when that node never completes. -/
inductive BlockKind where
  | regular (successor : BlockId)
  | conditional (condition : NodeId) (thenSuccessor elseSuccessor : BlockId)
  | exceptional (successor : Option BlockId) (handlers : List (String × BlockId))
  | special (kind : SpecialKind) (successor : Option BlockId)
  deriving DecidableEq, Repr

namespace BlockKind

def name : BlockKind → String
  | regular _ => "regular"
  | conditional _ _ _ => "conditional"
  | exceptional _ _ => "exceptional"
  | special kind _ => kind.name

/-- The targets of the edges: the normal one first, then those of raised
categories. Both arms of a test count, even to one target. -/
def successors : BlockKind → List BlockId
  | regular successor => [successor]
  | conditional _ thenSuccessor elseSuccessor => [thenSuccessor, elseSuccessor]
  | exceptional successor handlers => successor.toList ++ handlers.map Prod.snd
  | special _ successor => successor.toList

/-- Routes a category to a target. A category that has a route keeps its place. -/
def route (handlers : List (String × BlockId)) (category : String) (target : BlockId) :
    List (String × BlockId) :=
  if handlers.any fun h => h.1 = category then
    handlers.map fun h => if h.1 = category then (category, target) else h
  else handlers ++ [(category, target)]

end BlockKind

structure Block where
  id : BlockId
  nodes : List NodeId
  kind : BlockKind
  deriving DecidableEq, Repr

namespace Block

def successors (b : Block) : List BlockId := b.kind.successors

def lastNode? (b : Block) : Option NodeId := b.nodes.getLast?

end Block

/-!
Why a unit has no graph, or the parts of a graph do not fit together.
-/

inductive GraphError where
  | breakOutsideLoop
  | continueOutsideLoop
  | unknownLabel (label : String)
  | duplicateHandler (category : String)
  | emptyExceptionCategory
  | blockIdMismatch (index : Nat) (id : BlockId)
  | nodeIdMismatch (index : Nat) (id : NodeId)
  | danglingOperand (node operand : NodeId)
  | danglingEdge (source target : BlockId)
  | nodeBlockMismatch (node : NodeId) (claimed actual : BlockId)
  | orphanNode (node : NodeId)
  | successorCount (block : BlockId) (kind : String) (found : Nat)
  | exceptionalContents (block : BlockId) (found : Nat)
  | nonEmptyBlock (block : BlockId) (kind : String)
  | conditionNotInPredecessor (block : BlockId) (condition : NodeId)
  | exitHasSuccessors (block : BlockId)
  deriving DecidableEq, Repr

namespace GraphError

def message : GraphError → String
  | breakOutsideLoop => "`break` outside of a loop"
  | continueOutsideLoop => "`continue` outside of a loop"
  | unknownLabel label => s!"no enclosing loop is labelled `{label}`"
  | duplicateHandler category => s!"try statement has two handlers for `{category}`"
  | emptyExceptionCategory => "handler for an empty exception category"
  | blockIdMismatch index id => s!"block at position {index} is numbered block {id}"
  | nodeIdMismatch index id => s!"node at position {index} is numbered node {id}"
  | danglingOperand node operand => s!"node {node} reads nonexistent node {operand}"
  | danglingEdge source target => s!"block {source} has an edge to nonexistent block {target}"
  | nodeBlockMismatch node claimed actual =>
      s!"node {node} claims block {claimed} but is listed in block {actual}"
  | orphanNode node => s!"node {node} is not listed in any block"
  | successorCount block kind found =>
      s!"block {block} is a {kind} block but has {found} successors"
  | exceptionalContents block found =>
      s!"exceptional block {block} must hold exactly one node, found {found}"
  | nonEmptyBlock block kind => s!"{kind} block {block} must not hold nodes"
  | conditionNotInPredecessor block condition =>
      s!"conditional block {block} tests node {condition}, which does not end its predecessor"
  | exitHasSuccessors block => s!"exit block {block} has successors"

end GraphError

end FlowTyping
