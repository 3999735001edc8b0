import FlowTyping.Checker.Basic
import FlowTyping.Flow.Error
import FlowTyping.Flow.Refinement
import FlowTyping.Graph.Basic

/-!
The transfer of qualifiers through nodes and blocks. A node has one qualifier, the
join over all visits of it; a split store lasts until the next node.
-/

namespace FlowTyping

/-- The qualifier computed for each node so far. -/
abbrev NodeValues := Array (Option Qualifier)

namespace Checker

/-- The qualifier of a name written at a node. -/
def resolveAt (c : Checker) (node : Node) (name : String) : Except AnalysisError Qualifier :=
  match c.hierarchy.lookup? name with
  | some q => .ok q
  | none => .error (.unknownQualifier name node.block node.id)

def element (c : Checker) (kind : SyntaxKind) : Qualifier := c.implicit.evaluate (.element kind)

/-- What a local variable may hold at most: its declared qualifier or the implicit one
of its kind. -/
def localBound (c : Checker) (node : Node) (var : LocalVar) : Except AnalysisError Qualifier :=
  match var.declared, var.origin with
  | some name, _ => c.resolveAt node name
  | none, .parameter => .ok (c.element .parameter)
  | none, .local => .ok (c.element .localVariable)

def fieldBound (c : Checker) (field : String) : Qualifier :=
  (c.signatures.field? field).getD (c.element .field)

/-- The qualifier that a call of a method returns. -/
def callResult (c : Checker) (method : String) : Qualifier :=
  ((c.signatures.method? method).bind MethodSignature.returns).getD (c.element .methodReturn)

/-- The key of the expression that a node denotes, given the keys of the nodes before
it. -/
def nodeKey (c : Checker) (before : Array (Option FlowKey)) (kind : NodeKind) :
    Option FlowKey :=
  let operand := fun id => before.getD id none
  let refinable := fun id => (operand id).filter FlowKey.isRefinable
  match kind with
  | .localRead var => some (.local var.name)
  | .this => some .this
  | .literal value => some (.literal value.text)
  | .fieldRead receiver field => (refinable receiver).map fun key => .field key field
  | .call receiver method args =>
      if c.signatures.isPure method then do
        let receiver ← match receiver with
          | none => some none
          | some id => (refinable id).map some
        let args ← args.mapM operand
        return .pureCall receiver method args
      else none
  | _ => none

/-- The keys of all nodes of a graph, in node order. -/
def nodeKeys (c : Checker) (g : FlowGraph) : Array (Option FlowKey) :=
  g.nodes.foldl (fun keys node => keys.push (c.nodeKey keys node.kind)) #[]

end Checker

/-- The blocks other than its own that read a node, in node order. -/
def FlowGraph.consumersOf (g : FlowGraph) (id : NodeId) : List BlockId :=
  let home := (g.node? id).map Node.block
  Digraph.distinct (g.nodes.toList.filterMap fun user =>
    if id ∈ user.kind.operands && home ≠ some user.block then some user.block else none)

/-- What the transfer of one unit reads and never changes. -/
structure UnitAnalysis where
  checker : Checker
  graph : FlowGraph
  initial : Store
  keys : Array (Option FlowKey)
  consumers : Array (List BlockId)

namespace UnitAnalysis

def new (checker : Checker) (graph : FlowGraph) (initial : Store) : UnitAnalysis where
  checker := checker
  graph := graph
  initial := initial
  keys := checker.nodeKeys graph
  consumers := (Array.range graph.nodeCount).map graph.consumersOf

/-- The key of a node that a store may hold. -/
def key? (u : UnitAnalysis) (id : NodeId) : Option FlowKey :=
  (u.keys.getD id none).filter FlowKey.isRefinable

/-- The qualifier of an operand of a node. -/
def operand (values : NodeValues) (node : Node) (id : NodeId) :
    Except AnalysisError Qualifier :=
  match values.getD id none with
  | some q => .ok q
  | none => .error (.missingOperand id node.id node.block)

/-- The qualifier that the store has for the key of a node, met with what is
declared; without either key or entry, what is declared. -/
def flowValue (u : UnitAnalysis) (s : Store) (key : Option FlowKey) (declared : Qualifier) :
    Qualifier :=
  match key.bind s.get? with
  | some flow => u.checker.hierarchy.meet flow declared
  | none => declared

/-- The qualifier that an assignment stores: that of its source, or the bound if the
source does not respect it. -/
def clamp (u : UnitAnalysis) (source bound : Qualifier) : Qualifier :=
  if u.checker.hierarchy.isSubtype source bound then source else bound

/-- The store after the unconditional postconditions of a call. -/
def ensure (u : UnitAnalysis) (receiver : Option NodeId) (args : List NodeId) (s : Store)
    (p : Postcondition Qualifier) : Store :=
  match (p.target.operand? receiver args).bind u.key? with
  | some key => s.refine u.checker.hierarchy key p.qualifier
  | none => s

/-- The kind of syntax that a binary operation is. -/
def syntaxOf (op : BinOp) : SyntaxKind :=
  if op.isComparison then .comparison
  else if op = .concat then .concatenation
  else .arithmetic

/-- The join of the qualifiers of two operands. -/
def joinOperands (u : UnitAnalysis) (values : NodeValues) (node : Node) (a b : NodeId) :
    Except AnalysisError Qualifier := do
  let left ← operand values node a
  let right ← operand values node b
  return u.checker.hierarchy.join left right

/-- The qualifier of a node and the store after it, before any refinement. -/
def evaluate (u : UnitAnalysis) (values : NodeValues) (node : Node) (s : Store) :
    Except AnalysisError (Qualifier × Store) :=
  let c := u.checker
  let h := c.hierarchy
  match node.kind with
  | .literal value => .ok (c.implicit.evaluate (.literal value), s)
  | .localRead var => do
      let bound ← c.localBound node var
      return (u.flowValue s (some (.local var.name)) bound, s)
  | .this => .ok (s.valueOrTop .this, s)
  | .fieldRead _ field => .ok (u.flowValue s (u.key? node.id) (c.fieldBound field), s)
  | .call receiver method args =>
      let s := if c.signatures.isPure method then s else s.invalidateHeap
      let value := u.flowValue s (u.key? node.id) (c.callResult method)
      let posts := ((c.signatures.method? method).map MethodSignature.ensures).getD []
      .ok (value, posts.foldl (u.ensure receiver args) s)
  | .new _ _ => .ok (c.element .newObject, s.invalidateHeap)
  | .binary op lhs rhs =>
      match c.implicit.find? (.element (syntaxOf op)) with
      | some q => .ok (q, s)
      | none =>
          if op.isComparison then .ok (h.top, s)
          else (u.joinOperands values node lhs rhs).map (·, s)
  | .shortCircuit _ lhs rhs => (u.joinOperands values node lhs rhs).map (·, s)
  | .ternaryMerge thenValue elseValue =>
      (u.joinOperands values node thenValue elseValue).map (·, s)
  | .cast qualifier _ => (c.resolveAt node qualifier).map (·, s)
  | .unary _ id => (operand values node id).map (·, s)
  | .localDecl var =>
      (c.localBound node var).map (·, s.invalidateLocal var.name)
  | .assign (.local var) id => do
      let source ← operand values node id
      let bound ← c.localBound node var
      let assigned := u.clamp source bound
      return (assigned, (s.invalidateLocal var.name).insert (.local var.name) assigned)
  | .assign (.field receiver field) id => do
      let source ← operand values node id
      let assigned := u.clamp source (c.fieldBound field)
      let s := s.invalidateField field
      return (assigned,
        match u.key? receiver with
        | some key => s.insert (.field key field) assigned
        | none => s)
  | .returnValue (some id) | .throw _ (some id) => (operand values node id).map (·, s)
  | .returnValue none | .throw _ none | .assertFailure => .ok (h.top, s)

/-- The qualifier of a node and what leaves it. A negation keeps the split of its
operand with the outcomes exchanged. -/
def transferNode (u : UnitAnalysis) (values : NodeValues) (node : Node)
    (input : TransferResult) : Except AnalysisError (Qualifier × TransferResult) := do
  let h := u.checker.hierarchy
  node.kind.operands.forM fun id => discard (operand values node id)
  match node.kind with
  | .unary .not id => return (← operand values node id, input.swap)
  | _ =>
      let (value, s) ← u.evaluate values node (input.collapse h)
      let context : TestContext := ⟨node, h, u.checker.signatures, values, u.keys⟩
      let refinements := Refinement.enabled u.checker.refinesEquality
      return (value, (Refinement.refine? refinements context s).getD (.regular s))

/-- A run over the nodes of a block: the qualifiers so far, the result after the last
node, and the blocks that have to see a changed qualifier. -/
structure BlockRun where
  values : NodeValues
  current : TransferResult
  revisit : List BlockId

/-- The qualifier of a node joined into what it was before. -/
def recordValue (u : UnitAnalysis) (id : NodeId) (value : Qualifier) (run : BlockRun) :
    BlockRun :=
  let old := run.values.getD id none
  let joined := match old with
    | some old => u.checker.hierarchy.join old value
    | none => value
  if old = some joined then run
  else
    let readers := (u.consumers.getD id []).filter (· ∉ run.revisit)
    { run with
      values := run.values.setIfInBounds id (some joined)
      revisit := run.revisit ++ readers }

/-- Runs nodes one after the other. The qualifiers computed before an error remain. -/
def runNodes (u : UnitAnalysis) : List NodeId → BlockRun → BlockRun × Option AnalysisError
  | [], run => (run, none)
  | id :: rest, run =>
      match u.graph.node? id with
      | none => runNodes u rest run
      | some node =>
          match u.transferNode run.values node run.current with
          | .error e => (run, some e)
          | .ok (value, result) =>
              runNodes u rest { u.recordValue id value run with current := result }

/-- The run over a block from some input. -/
def runBlock (u : UnitAnalysis) (block : Block) (values : NodeValues)
    (input : TransferResult) : BlockRun × Option AnalysisError :=
  u.runNodes block.nodes ⟨values, input, []⟩

end UnitAnalysis

end FlowTyping
