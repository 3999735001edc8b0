import FlowTyping.Checker.Error
import FlowTyping.Graph.Digraph

/-!
Finite orders given by a Boolean relation on the naturals below a size: extreme
elements, and the least of a list of candidates.
-/

namespace FlowTyping

/-- A relation on the naturals below `size`, tabulated. -/
structure Order where
  size : Nat
  table : Array (Array Bool)
  deriving Repr

namespace Order

def tabulate (size : Nat) (le : Nat → Nat → Bool) : Order :=
  ⟨size, (Array.range size).map fun a => (Array.range size).map fun b => le a b⟩

def le (o : Order) (a b : Nat) : Bool := (o.table.getD a #[]).getD b false

def elements (o : Order) : List Nat := List.range o.size

/-- The elements below no other. -/
def maximal (o : Order) : List Nat :=
  o.elements.filter fun a => o.elements.all fun b => a = b || !o.le a b

/-- The elements above no other. -/
def minimal (o : Order) : List Nat :=
  o.elements.filter fun a => o.elements.all fun b => a = b || !o.le b a

def upperBounds (o : Order) (a b : Nat) : List Nat :=
  o.elements.filter fun c => o.le a c && o.le b c

def lowerBounds (o : Order) (a b : Nat) : List Nat :=
  o.elements.filter fun c => o.le c a && o.le c b

end Order

/-- The first candidate below all of them, or else the candidates that are above
no other. -/
def leastOf (le : Nat → Nat → Bool) (candidates : List Nat) : Except (List Nat) Nat :=
  match candidates.find? fun x => candidates.all fun y => le x y with
  | some x => .ok x
  | none => .error (candidates.filter fun x => !candidates.any fun y => y ≠ x && le y x)

namespace Order

def join? (o : Order) (a b : Nat) : Except (List Nat) Nat := leastOf o.le (o.upperBounds a b)

def meet? (o : Order) (a b : Nat) : Except (List Nat) Nat :=
  leastOf (fun x y => o.le y x) (o.lowerBounds a b)

/-- The length of a longest strict chain that ends in each element. The elements
come with smaller ones first. -/
def chainLengths (o : Order) (ordered : List Nat) : List Nat :=
  ordered.foldl
    (fun lengths a =>
      lengths.mapIdx fun b n =>
        if a ≠ b && o.le a b then max n (lengths.getD a 0 + 1) else n)
    (List.replicate o.size 0)

/-- The elements directly above `a`. -/
def covers (o : Order) (a : Nat) : List Nat :=
  let strict := o.elements.filter fun b => b ≠ a && o.le a b
  strict.filter fun b => !strict.any fun c => c ≠ b && o.le c b

end Order

/-!
Qualifier hierarchies: finite lattices built from named qualifiers and pairwise
subtype declarations, with every join and meet tabulated.
-/

/-- A qualifier, by its place in its hierarchy. -/
structure Qualifier where
  index : Nat
  deriving DecidableEq, Repr, Inhabited

def Qualifier.text (q : Qualifier) : String := s!"q{q.index}"

/-- A lattice of qualifiers. The bottom is the most specific one, the top the one
that says nothing. -/
structure Hierarchy where
  names : List String
  order : Order
  joins : Array (Array Qualifier)
  meets : Array (Array Qualifier)
  top : Qualifier
  bottom : Qualifier
  height : Nat

namespace Hierarchy

/-- The first name that stands in the list a second time. -/
def firstRepeated? : List String → List String → Option String
  | _, [] => none
  | seen, name :: rest => if name ∈ seen then some name else firstRepeated? (name :: seen) rest

/-- The index of a name used in some context of a declaration. -/
def resolveName (names : List String) (name context : String) :
    Except DeclarationError Nat :=
  match names.idxOf? name with
  | some i => .ok i
  | none => .error (.unknownQualifier name context)

def resolveSubtype (names : List String) (declared : String × String) :
    Except DeclarationError (Nat × Nat) := do
  let context := s!"subtype declaration `{declared.1} <: {declared.2}`"
  let sub ← resolveName names declared.1 context
  let sup ← resolveName names declared.2 context
  return (sub, sup)

private def nameAt (names : List String) (i : Nat) : String := names.getD i ""

/-- The results of an operation on all pairs, or its first failure. -/
def rows (size : Nat) (cell : Nat → Nat → Except DeclarationError Nat) :
    Except DeclarationError (Array (Array Qualifier)) := do
  let table ← (List.range size).mapM fun a =>
    (List.range size).mapM fun b => (cell a b).map Qualifier.mk
  return (table.map List.toArray).toArray

/-- The relation that the edges generate, reflexive and transitive. -/
def closure (g : Digraph) : Order :=
  let above := (Array.range g.size).map g.reachable
  Order.tabulate g.size fun a b => b ∈ above.getD a []

/-- The lattice of an acyclic declaration whose vertices are given with smaller
ones first. -/
def ofOrder (names : List String) (order : Order) (ordered : List Nat) :
    Except DeclarationError Hierarchy := do
  let name := nameAt names
  let top ← match order.maximal with
    | [only] => .ok only
    | many => .error (.noUniqueTop (many.map name))
  let bottom ← match order.minimal with
    | [only] => .ok only
    | many => .error (.noUniqueBottom (many.map name))
  let joins ← rows order.size fun a b =>
    (order.join? a b).mapError fun found => .noUniqueJoin (name a) (name b) (found.map name)
  let meets ← rows order.size fun a b =>
    (order.meet? a b).mapError fun found => .noUniqueMeet (name a) (name b) (found.map name)
  return {
    names, order, joins, meets
    top := ⟨top⟩
    bottom := ⟨bottom⟩
    height := (order.chainLengths ordered).foldl max 0 }

/-- Builds the lattice, or tells the first reason why there is none. -/
def build (names : List String) (subtypes : List (String × String)) :
    Except DeclarationError Hierarchy := do
  if names.isEmpty then throw .emptyHierarchy
  if let some name := firstRepeated? [] names then throw (.duplicateQualifier name)
  let edges ← subtypes.mapM (resolveSubtype names)
  let graph := Digraph.ofEdges names.length (edges.filter fun e => e.1 ≠ e.2)
  let ordered := graph.fullWalk.finished
  if let some i := graph.outOfOrder? [] ordered then throw (.cyclicSubtyping (nameAt names i))
  ofOrder names (closure graph) ordered

def size (h : Hierarchy) : Nat := h.names.length

def isEmpty (h : Hierarchy) : Bool := h.names.isEmpty

def qualifiers (h : Hierarchy) : List Qualifier := (List.range h.size).map Qualifier.mk

def name (h : Hierarchy) (q : Qualifier) : String := nameAt h.names q.index

def isSubtype (h : Hierarchy) (a b : Qualifier) : Bool := h.order.le a.index b.index

def join (h : Hierarchy) (a b : Qualifier) : Qualifier :=
  (h.joins.getD a.index #[]).getD b.index h.top

def meet (h : Hierarchy) (a b : Qualifier) : Qualifier :=
  (h.meets.getD a.index #[]).getD b.index h.bottom

/-- The join of all qualifiers of a list, the bottom for none. -/
def joinAll (h : Hierarchy) (qs : List Qualifier) : Qualifier := qs.foldl h.join h.bottom

def lookup? (h : Hierarchy) (name : String) : Option Qualifier :=
  (h.names.idxOf? name).map Qualifier.mk

/-- The qualifier of a name used in some context of a declaration. -/
def resolve (h : Hierarchy) (name context : String) : Except DeclarationError Qualifier :=
  (resolveName h.names name context).map Qualifier.mk

/-- The qualifiers directly above one. -/
def directSupertypes (h : Hierarchy) (q : Qualifier) : List Qualifier :=
  (h.order.covers q.index).map Qualifier.mk

end Hierarchy

end FlowTyping
