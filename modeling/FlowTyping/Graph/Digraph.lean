/-!
Directed graphs on an initial segment of the naturals, and the depth-first walk
behind every order, cycle and reachability question asked of them.
-/

namespace FlowTyping

/-- A directed graph on the vertices below `size`. Edges keep the order of their
first appearance. -/
structure Digraph where
  size : Nat
  edges : List (Nat × Nat)
  deriving DecidableEq, Repr

namespace Digraph

/-- The items of a list without repetitions, each at its first place. -/
def distinct {α : Type} [DecidableEq α] : List α → List α
  | [] => []
  | a :: rest => a :: (distinct rest).filter (· ≠ a)

def ofEdges (size : Nat) (edges : List (Nat × Nat)) : Digraph := ⟨size, distinct edges⟩

def successors (g : Digraph) (a : Nat) : List Nat :=
  g.edges.filterMap fun e => if e.1 = a then some e.2 else none

def predecessors (g : Digraph) (b : Nat) : List Nat :=
  g.edges.filterMap fun e => if e.2 = b then some e.1 else none

/-- How far a depth-first walk has come: the vertices seen, those finished, and the
edges that closed a cycle, each list with its last one first. -/
structure Walk where
  seen : List Nat
  finished : List Nat
  closing : List (Nat × Nat)
  deriving DecidableEq, Repr

namespace Walk

def start : Walk := ⟨[], [], []⟩

end Walk

/-- Walks everything reachable from `v` that has not been seen. The fuel bounds the
number of vertices still open. -/
def visit (next : Nat → List Nat) : Nat → Walk → Nat → Walk
  | 0, w, _ => w
  | fuel + 1, w, v =>
      if v ∈ w.seen then w
      else
        let after := (next v).foldl
          (fun w u =>
            if u ∈ w.finished then w
            else if u ∈ w.seen then { w with closing := (v, u) :: w.closing }
            else visit next fuel w u)
          { w with seen := v :: w.seen }
        { after with finished := v :: after.finished }

/-- The walk from each root in turn over at most `size` vertices. -/
def walk (next : Nat → List Nat) (size : Nat) (roots : List Nat) : Walk :=
  roots.foldl (visit next (size + 1)) .start

/-- A walk over the whole graph, in vertex order. -/
def fullWalk (g : Digraph) : Walk := walk g.successors g.size (List.range g.size)

/-- The vertices that can be reached from `a`, itself included. -/
def reachable (g : Digraph) (a : Nat) : List Nat := (walk g.successors g.size [a]).finished

/-- Whether some edge leads back to a vertex still open in a walk of the graph. -/
def hasCycle (g : Digraph) : Bool := !g.fullWalk.closing.isEmpty

/-- The first vertex of an order that has an edge from a vertex listed neither
before it nor as itself, and the source of the earliest such edge. -/
def outOfOrder? (g : Digraph) : List Nat → List Nat → Option Nat
  | _, [] => none
  | listed, v :: rest =>
      match (g.predecessors v).find? fun u => u ∉ v :: listed with
      | some u => some u
      | none => outOfOrder? g (v :: listed) rest

end Digraph

end FlowTyping
