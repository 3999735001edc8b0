import FlowTyping.Flow.Check
import FlowTyping.Flow.Solver
import FlowTyping.Lowering.Lower
import FlowTyping.Settings

/-!
The qualifier analysis of a unit: from its parameters to the fixpoint over its graph,
to the qualifier of every node and the diagnostics.
-/

namespace FlowTyping

namespace UnitAnalysis

/-- The facts sent on by a block. A test sends each outcome along its own edge; the
clauses that catch from a raising node see the store before it. -/
def transferBlock (u : UnitAnalysis) (values : NodeValues) (id : BlockId)
    (input : TransferResult) :
    Except AnalysisError (BlockTransfer TransferResult × NodeValues) :=
  let h := u.checker.hierarchy
  match u.graph.block? id with
  | none => .ok (⟨input, [], []⟩, values)
  | some block =>
      match block.kind with
      | .conditional _ thenSuccessor elseSuccessor =>
          let edges := [(thenSuccessor, .regular input.thenStore),
            (elseSuccessor, .regular input.elseStore)]
          .ok (⟨input, edges, []⟩, values)
      | .special _ successor =>
          let store := .regular (input.collapse h)
          .ok (⟨store, successor.toList.map (·, store), []⟩, values)
      | .regular successor =>
          match u.runBlock block values input with
          | (_, some e) => .error e
          | (run, none) => .ok (⟨run.current, [(successor, run.current)], run.revisit⟩, run.values)
      | .exceptional successor handlers =>
          let before := .regular (input.collapse h)
          match u.runBlock block values input with
          | (_, some e) => .error e
          | (run, none) =>
              let edges := successor.toList.map (·, run.current) ++
                handlers.map fun handler => (handler.2, before)
              .ok (⟨run.current, edges, run.revisit⟩, run.values)

/-- The analysis of a unit as a dataflow analysis. Its state is the qualifiers of the
nodes. -/
def dataflow (u : UnitAnalysis) : DataflowAnalysis TransferResult NodeValues where
  initial := .regular u.initial
  bottom := .regular (.unreachable u.checker.hierarchy)
  join := TransferResult.join u.checker.hierarchy
  same := TransferResult.same
  transfer := u.transferBlock

/-- No node has a qualifier yet. -/
def noValues (u : UnitAnalysis) : NodeValues := Array.replicate u.graph.nodeCount none

/-- One pass over blocks that nothing reaches, each from the initial store. A block
that lacks an operand waits, and keeps what it has computed. -/
def detachedPass (u : UnitAnalysis) : List BlockId → NodeValues →
    Except AnalysisError (NodeValues × List (BlockId × AnalysisError))
  | [], values => .ok (values, [])
  | id :: rest, values =>
      match u.graph.block? id with
      | none => detachedPass u rest values
      | some block =>
          match u.runBlock block values (.regular u.initial) with
          | (run, none) => detachedPass u rest run.values
          | (run, some (.missingOperand operand node at_)) => do
              let (values, waiting) ← detachedPass u rest run.values
              return (values, (id, .missingOperand operand node at_) :: waiting)
          | (_, some e) => .error e

/-- Evaluates blocks that nothing reaches in passes, until none waits. A pass after
which as many wait as before fails for the first of them. -/
def evaluateDetached (u : UnitAnalysis) (pending : List BlockId) (values : NodeValues) :
    Except AnalysisError NodeValues :=
  match u.detachedPass pending values with
  | .error e => .error e
  | .ok (values, []) => .ok values
  | .ok (values, first :: others) =>
      if others.length + 1 < pending.length then
        evaluateDetached u (first.1 :: others.map Prod.fst) values
      else .error first.2
  termination_by pending.length
  decreasing_by simpa

end UnitAnalysis

/-- What the analysis of a unit found. -/
structure AnalyzedUnit where
  name : String
  graph : FlowGraph
  fixpoint : Fixpoint TransferResult
  values : NodeValues
  diagnostics : List Diagnostic

namespace AnalyzedUnit

/-- The store with which the unit returns, if it can. -/
def exitStore (a : AnalyzedUnit) : Option Store :=
  (a.fixpoint.outFact a.graph.exit).map TransferResult.thenStore

end AnalyzedUnit

namespace Checker

/-- The qualifier of a name that a unit declares in some context. -/
def resolveDeclared (c : Checker) (name context : String) : Except AnalysisError Qualifier :=
  match c.hierarchy.lookup? name with
  | some q => .ok q
  | none => .error (.unknownUnitQualifier name context)

def addParameter (c : Checker) (s : Store) (p : Parameter) : Except AnalysisError Store := do
  let q ← match p.qualifier with
    | some name => c.resolveDeclared name s!"parameter `{p.name}`"
    | none => pure (c.element .parameter)
  return s.insert (.local p.name) q

/-- The store in which every parameter has its declared or implicit qualifier. -/
def initialStore (c : Checker) (u : ProgramUnit) : Except AnalysisError Store :=
  u.params.foldlM c.addParameter (.new c.hierarchy)

def returnBound (c : Checker) (u : ProgramUnit) : Except AnalysisError (Option Qualifier) :=
  match u.returnQualifier with
  | none => .ok none
  | some name => (c.resolveDeclared name "return value").map some

/-- Analyses a graph as the graph of a unit. -/
def analyzeGraph (c : Checker) (s : AnalysisSettings) (u : ProgramUnit) (g : FlowGraph) :
    Except AnalysisError AnalyzedUnit := do
  let initial ← c.initialStore u
  let bound ← c.returnBound u
  let analysis := UnitAnalysis.new c g initial
  let limit := s.visitLimit g.size g.nodeCount c.hierarchy.height
  let (fixpoint, solved) ← solve analysis.dataflow g limit s.recordHistory analysis.noValues
  let values ←
    if s.checkUnreachable then analysis.evaluateDetached g.unreachable solved
    else .ok solved
  let diagnostics ← c.checkGraph g values bound s.checkUnreachable
  return { name := u.name, graph := g, fixpoint, values, diagnostics }

/-- Lowers and analyses a unit. -/
def analyze (c : Checker) (s : AnalysisSettings) (u : ProgramUnit) :
    Except UnitError AnalyzedUnit := do
  let g ← u.lower.mapError (UnitError.construction u.name)
  (c.analyzeGraph s u g).mapError (UnitError.analysis u.name)

end Checker

end FlowTyping
