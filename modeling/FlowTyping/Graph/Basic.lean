import FlowTyping.Graph.Digraph
import FlowTyping.Graph.Block

/-!
Control flow graphs. A graph comes from parts whose ids are positions, whose
references exist, and whose blocks have the nodes and edges of their kind.
-/

namespace FlowTyping

/-- Blocks and nodes with the designated blocks, before any check. -/
structure GraphParts where
  name : String
  blocks : Array Block
  nodes : Array Node
  entry : BlockId
  exit : BlockId
  exceptionalExit : BlockId
  deriving Repr

/-- A control flow graph: checked parts, the predecessors of each block, and the
blocks that no path from the entry reaches. -/
structure FlowGraph extends GraphParts where
  predecessors : Array (List BlockId)
  unreachable : List BlockId
  deriving Repr

namespace GraphParts

/-- Stops with an error if a condition holds. -/
def refuseIf (condition : Bool) (e : GraphError) : Except GraphError Unit :=
  if condition then .error e else .ok ()

/-- Every block stands at its id, and every edge leads to a block. -/
def checkBlocks (p : GraphParts) : Except GraphError Unit :=
  p.blocks.toList.zipIdx.forM fun (block, index) => do
    refuseIf (block.id ≠ index) (.blockIdMismatch index block.id)
    block.successors.forM fun target =>
      refuseIf (p.blocks.size ≤ target) (.danglingEdge block.id target)

/-- The designated blocks exist. -/
def checkDesignated (p : GraphParts) : Except GraphError Unit :=
  [p.entry, p.exit, p.exceptionalExit].forM fun block =>
    refuseIf (p.blocks.size ≤ block) (.danglingEdge block block)

/-- Every node stands at its id, and every operand is a node. -/
def checkNodes (p : GraphParts) : Except GraphError Unit :=
  p.nodes.toList.zipIdx.forM fun (node, index) => do
    refuseIf (node.id ≠ index) (.nodeIdMismatch index node.id)
    match node.kind.operands.find? fun operand => p.nodes.size ≤ operand with
    | some operand => .error (.danglingOperand node.id operand)
    | none => .ok ()

/-- The blocks with an edge to each block, in block order and each once. -/
def predecessorTable (p : GraphParts) : Array (List BlockId) :=
  (Array.range p.blocks.size).map fun target =>
    p.blocks.toList.filterMap fun block =>
      if target ∈ block.successors then some block.id else none

/-- A block has the nodes and successors of its kind. -/
def checkBlock (p : GraphParts) (predecessors : Array (List BlockId)) (block : Block) :
    Except GraphError Unit :=
  match block.kind with
  | .regular _ => .ok ()
  | .conditional condition _ _ => do
      refuseIf (!block.nodes.isEmpty) (.nonEmptyBlock block.id "conditional")
      let endsWithCondition := match predecessors.getD block.id [] with
        | [only] => (p.blocks[only]?.bind Block.lastNode?) = some condition
        | _ => false
      refuseIf (!endsWithCondition) (.conditionNotInPredecessor block.id condition)
  | .exceptional successor handlers => do
      refuseIf (block.nodes.length ≠ 1) (.exceptionalContents block.id block.nodes.length)
      refuseIf (successor.isNone && handlers.isEmpty)
        (.successorCount block.id "exceptional" 0)
  | .special kind successor => do
      refuseIf (!block.nodes.isEmpty) (.nonEmptyBlock block.id kind.name)
      refuseIf (kind.isExit && successor.isSome) (.exitHasSuccessors block.id)
      refuseIf (!kind.isExit && successor.isNone) (.successorCount block.id kind.name 0)

/-- A block lists nodes that exist and that name it as theirs. -/
def checkListing (p : GraphParts) (block : Block) : Except GraphError Unit :=
  block.nodes.forM fun id =>
    match p.nodes[id]? with
    | none => .error (.orphanNode id)
    | some node => refuseIf (node.block ≠ block.id) (.nodeBlockMismatch id node.block block.id)

/-- The first node that no block lists. -/
def unlisted? (p : GraphParts) : Option NodeId :=
  let listed := p.blocks.toList.flatMap Block.nodes
  (List.range p.nodes.size).find? fun id => id ∉ listed

/-- The structural conditions on blocks and nodes, in block order. -/
def checkStructure (p : GraphParts) (predecessors : Array (List BlockId)) :
    Except GraphError Unit := do
  p.blocks.toList.forM fun block => do
    p.checkListing block
    p.checkBlock predecessors block
  match p.unlisted? with
  | some id => .error (.orphanNode id)
  | none => .ok ()

def successors (p : GraphParts) (id : BlockId) : List BlockId :=
  (p.blocks[id]?.map Block.successors).getD []

/-- A depth-first walk from the entry that takes successors as they are listed. -/
def entryWalk (p : GraphParts) : Digraph.Walk :=
  Digraph.walk p.successors p.blocks.size [p.entry]

/-- The graph of some parts, or the first condition that they break. -/
def toGraph (p : GraphParts) : Except GraphError FlowGraph := do
  p.checkBlocks
  p.checkDesignated
  p.checkNodes
  let predecessors := p.predecessorTable
  p.checkStructure predecessors
  let reachable := p.entryWalk.finished
  return {
    p with
    predecessors
    unreachable := (List.range p.blocks.size).filter fun id => id ∉ reachable }

end GraphParts

namespace FlowGraph

def block? (g : FlowGraph) (id : BlockId) : Option Block := g.blocks[id]?

def node? (g : FlowGraph) (id : NodeId) : Option Node := g.nodes[id]?

def size (g : FlowGraph) : Nat := g.blocks.size

def nodeCount (g : FlowGraph) : Nat := g.nodes.size

def predecessorsOf (g : FlowGraph) (id : BlockId) : List BlockId := g.predecessors.getD id []

def isReachable (g : FlowGraph) (id : BlockId) : Bool := id ∉ g.unreachable

/-- Whether the conditions on blocks and nodes hold. -/
def isValid (g : FlowGraph) : Bool := (g.checkStructure g.predecessors).isOk

/-- The reachable blocks, each before those it leads to unless they lead back to it. -/
def reversePostorder (g : FlowGraph) : List BlockId := g.entryWalk.finished

def postorder (g : FlowGraph) : List BlockId := g.reversePostorder.reverse

/-- The graph of blocks alone, parallel edges being one. -/
def blockGraph (g : FlowGraph) : Digraph :=
  Digraph.ofEdges g.size
    (g.blocks.toList.flatMap fun block => block.successors.map fun target => (block.id, target))

/-- The edges that close a cycle in a walk from the entry that takes the successors
of a block last ones first, in the order in which the walk comes to them. -/
def backEdges (g : FlowGraph) : List (BlockId × BlockId) :=
  let d := g.blockGraph
  (Digraph.walk (fun id => (d.successors id).reverse) g.size [g.entry]).closing.reverse

def hasCycle (g : FlowGraph) : Bool := g.blockGraph.hasCycle

private def edgeText : BlockKind → String
  | .regular successor => s!" -> {successor}"
  | .conditional condition thenSuccessor elseSuccessor =>
      s!" on #{condition}: then -> {thenSuccessor}, else -> {elseSuccessor}"
  | .exceptional successor handlers =>
      (successor.map fun s => s!" -> {s}").getD "" ++
        String.join (handlers.map fun h => s!" {h.1} -> {h.2}")
  | .special _ successor => (successor.map fun s => s!" -> {s}").getD ""

private def blockText (g : FlowGraph) (block : Block) : String :=
  let mark := if g.isReachable block.id then "" else " (unreachable)"
  let nodes := block.nodes.map fun id =>
    let content := ((g.node? id).map fun n => n.kind.text).getD ""
    s!"  #{id}: {content}\n"
  s!"block {block.id} [{block.kind.name}]{mark}{edgeText block.kind}\n" ++ String.join nodes

/-- A listing of the blocks with their edges and nodes. -/
def text (g : FlowGraph) : String :=
  s!"cfg `{g.name}`: {g.size} blocks, {g.nodeCount} nodes\n" ++
    String.join (g.blocks.toList.map g.blockText)

end FlowGraph

end FlowTyping
