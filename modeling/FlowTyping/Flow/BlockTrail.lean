import FlowTyping.Flow.Solver

/-!
The blocks that some path can come through on the way to a block, as a dataflow
analysis.
-/

namespace FlowTyping

namespace BlockTrail

/-- The union of two ascending lists. -/
def union : List BlockId → List BlockId → List BlockId
  | [], b => b
  | a, [] => a
  | x :: a, y :: b =>
      if x < y then x :: union a (y :: b)
      else if y < x then y :: union (x :: a) b
      else x :: union a b
  termination_by a b => a.length + b.length

/-- Facts are ascending lists of blocks. Every block adds itself to what it sends
along each of its edges. -/
def analysis (g : FlowGraph) : DataflowAnalysis (List BlockId) Unit where
  initial := []
  bottom := []
  join := union
  same a b := a = b
  transfer _ block input :=
    let output := union input [block]
    .ok (⟨output, (g.successors block).map (·, output), []⟩, ())

end BlockTrail

/-- The trail of every block. -/
def blockTrails (g : FlowGraph) (maxVisits : Nat) (recordHistory : Bool) :
    Except AnalysisError (Fixpoint (List BlockId)) :=
  (solve (BlockTrail.analysis g) g maxVisits recordHistory ()).map Prod.fst

end FlowTyping
