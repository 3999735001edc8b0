import FlowTyping.Graph.Block

/-!
Why the analysis of a unit stops without a result.
-/

namespace FlowTyping

inductive AnalysisError where
  | unknownQualifier (name : String) (block : BlockId) (node : NodeId)
  | unknownUnitQualifier (name context : String)
  | missingOperand (operand node : NodeId) (block : BlockId)
  | visitLimit (visits : Nat)
  deriving DecidableEq, Repr

namespace AnalysisError

def message : AnalysisError → String
  | unknownQualifier name block node =>
      s!"qualifier `{name}` used at node {node} in block {block} is not part of the hierarchy"
  | unknownUnitQualifier name context =>
      s!"qualifier `{name}` declared for {context} is not part of the hierarchy"
  | missingOperand operand node block =>
      s!"operand node {operand} of node {node} in block {block} has no computed qualifier"
  | visitLimit visits => s!"fixpoint not reached after {visits} block visits"

end AnalysisError

/-- Why a unit has no result: it has no graph, or its graph has no analysis. -/
inductive UnitError where
  | construction (unit : String) (cause : GraphError)
  | analysis (unit : String) (cause : AnalysisError)
  deriving DecidableEq, Repr

namespace UnitError

def unit : UnitError → String
  | construction unit _ | analysis unit _ => unit

def message : UnitError → String
  | construction unit cause => s!"unit `{unit}`: construction failed: {cause.message}"
  | analysis unit cause => s!"unit `{unit}`: analysis failed: {cause.message}"

end UnitError

end FlowTyping
