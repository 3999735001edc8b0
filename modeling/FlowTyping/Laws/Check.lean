import FlowTyping.Checker.Hierarchy
import FlowTyping.Json.Shape
import FlowTyping.Text.Quoted

/-!
The laws of a lattice that a hierarchy is checked for, each as a condition on tuples
of qualifiers.
-/

namespace FlowTyping

inductive LatticeProperty where
  | joinIdempotent | meetIdempotent
  | joinCommutative | meetCommutative
  | joinAssociative | meetAssociative
  | absorption
  | joinMatchesSubtyping | meetMatchesSubtyping
  | topBottom
  deriving DecidableEq, Repr

namespace LatticeProperty

def all : List LatticeProperty :=
  [joinIdempotent, meetIdempotent, joinCommutative, meetCommutative, joinAssociative,
    meetAssociative, absorption, joinMatchesSubtyping, meetMatchesSubtyping, topBottom]

def tag : LatticeProperty → String
  | joinIdempotent => "join_idempotent"
  | meetIdempotent => "meet_idempotent"
  | joinCommutative => "join_commutative"
  | meetCommutative => "meet_commutative"
  | joinAssociative => "join_associative"
  | meetAssociative => "meet_associative"
  | absorption => "absorption"
  | joinMatchesSubtyping => "join_matches_subtyping"
  | meetMatchesSubtyping => "meet_matches_subtyping"
  | topBottom => "top_bottom"

def text : LatticeProperty → String
  | joinIdempotent => "join idempotence"
  | meetIdempotent => "meet idempotence"
  | joinCommutative => "join commutativity"
  | meetCommutative => "meet commutativity"
  | joinAssociative => "join associativity"
  | meetAssociative => "meet associativity"
  | absorption => "absorption"
  | joinMatchesSubtyping => "join agrees with subtyping"
  | meetMatchesSubtyping => "meet agrees with subtyping"
  | topBottom => "top and bottom identities"

/-- The number of qualifiers that the law speaks about. -/
def arity : LatticeProperty → Nat
  | joinIdempotent | meetIdempotent | topBottom => 1
  | joinCommutative | meetCommutative | absorption => 2
  | joinMatchesSubtyping | meetMatchesSubtyping => 2
  | joinAssociative | meetAssociative => 3

/-- Whether the law holds of a tuple of its arity. -/
def law (h : Hierarchy) : LatticeProperty → List Qualifier → Bool
  | joinIdempotent, [a] => h.join a a = a
  | meetIdempotent, [a] => h.meet a a = a
  | joinCommutative, [a, b] => h.join a b = h.join b a
  | meetCommutative, [a, b] => h.meet a b = h.meet b a
  | joinAssociative, [a, b, c] => h.join (h.join a b) c = h.join a (h.join b c)
  | meetAssociative, [a, b, c] => h.meet (h.meet a b) c = h.meet a (h.meet b c)
  | absorption, [a, b] => h.join a (h.meet a b) = a && h.meet a (h.join a b) = a
  | joinMatchesSubtyping, [a, b] => h.isSubtype a b == (h.join a b = b : Bool)
  | meetMatchesSubtyping, [a, b] => h.isSubtype a b == (h.meet a b = a : Bool)
  | topBottom, [a] =>
      h.meet a h.top = a && h.join a h.bottom = a && h.join a h.top = h.top &&
        h.meet a h.bottom = h.bottom
  | _, _ => true

def read? (v : Json) : Option LatticeProperty := v.name? (all.map fun p => (p.tag, p))

def write (p : LatticeProperty) : Json := .str p.tag

end LatticeProperty

/-!
The check of the lattice laws of a hierarchy: on every tuple where there are few
enough, on drawn ones otherwise.
-/

open Json (required list?)

inductive PropertyStatus where
  | proven
  | unfalsified
  | violated (witness : List String)
  deriving DecidableEq, Repr

inductive CheckMethod where
  | exhaustive | sampled
  deriving DecidableEq, Repr

/-- What a check found, and the number of tuples that it tried. -/
structure CheckResult where
  property : LatticeProperty
  status : PropertyStatus
  method : CheckMethod
  cases : Nat
  deriving DecidableEq, Repr

namespace PropertyStatus

def read? (v : Json) : Option PropertyStatus := do
  let (name, payload) ← v.choice?
  let bare := payload.isNone || payload matches some .null
  match name with
  | "proven" => if bare then some proven else none
  | "unfalsified" => if bare then some unfalsified else none
  | "violated" =>
      let r ← payload.bind (Json.record? ["witness"])
      return violated (← required (list? Json.string?) (r "witness"))
  | _ => none

def write : PropertyStatus → Json
  | proven => .str "proven"
  | unfalsified => .str "unfalsified"
  | violated witness => .tagged "violated" (.obj [("witness", .ofList .str witness)])

end PropertyStatus

namespace CheckMethod

def read? (v : Json) : Option CheckMethod :=
  v.name? [("exhaustive", exhaustive), ("sampled", sampled)]

def write : CheckMethod → Json
  | exhaustive => .str "exhaustive"
  | sampled => .str "sampled"

end CheckMethod

namespace CheckResult

def isViolated (r : CheckResult) : Bool := r.status matches .violated _

def text (r : CheckResult) : String :=
  match r.status with
  | .proven => s!"{r.property.text}: proven ({r.cases} cases)"
  | .unfalsified => s!"{r.property.text}: holds on {r.cases} samples"
  | .violated witness => s!"{r.property.text}: violated by (" ++ Text.join ", " witness ++ ")"

def read? (v : Json) : Option CheckResult := do
  let r ← v.record? ["property", "status", "method", "cases"]
  return {
    property := ← required LatticeProperty.read? (r "property")
    status := ← required PropertyStatus.read? (r "status")
    method := ← required CheckMethod.read? (r "method")
    cases := ← required Json.unsigned? (r "cases") }

def write (r : CheckResult) : Json :=
  .obj [("property", r.property.write), ("status", r.status.write),
    ("method", r.method.write), ("cases", .nat r.cases)]

end CheckResult

namespace Hierarchy

/-- The tuples of an arity, in lexicographic order of index. -/
def tuples (h : Hierarchy) : Nat → List (List Qualifier)
  | 0 => [[]]
  | arity + 1 => h.qualifiers.flatMap fun q => (tuples h arity).map (q :: ·)

end Hierarchy

/-- The number of tuples over a number of qualifiers, up to the greatest count. -/
def tupleCount (size arity : Nat) : Nat := min (Nat.pow 2 64 - 1) (Nat.pow size arity)

/-- How the laws of a hierarchy are checked: the number of tuples up to which all are
tried, and the number that is drawn otherwise. -/
structure LawCheck where
  maxExhaustive : Nat
  samples : Nat
  deriving DecidableEq, Repr

namespace LawCheck

def standard : LawCheck := ⟨Nat.pow 2 20, 10000⟩

/-- The first of some tuples that breaks a law, and its place. -/
def firstViolation? (law : List Qualifier → Bool) :
    Nat → List (List Qualifier) → Option (Nat × List Qualifier)
  | _, [] => none
  | place, tuple :: rest =>
      if law tuple then firstViolation? law (place + 1) rest else some (place, tuple)

/-- Scatters a number over a range of sixty-four bits. -/
def scatter (n : Nat) : Nat :=
  let a := n * 0x9E3779B97F4A7C15 % Nat.pow 2 64
  let b := (a ^^^ (a >>> 30)) * 0xBF58476D1CE4E5B9 % Nat.pow 2 64
  b ^^^ (b >>> 27)

/-- The tuple that is drawn at a place. -/
def drawn (h : Hierarchy) (arity place : Nat) : List Qualifier :=
  (List.range arity).map fun i => ⟨scatter (place * arity + i + 1) % h.size⟩

/-- The check of a law of some arity, given how tuples are drawn. -/
def check (c : LawCheck) (h : Hierarchy) (property : LatticeProperty) (arity : Nat)
    (law : List Qualifier → Bool) (draw : Nat → List Qualifier) : CheckResult :=
  let exhaustive : Bool := tupleCount h.size arity ≤ c.maxExhaustive
  let method : CheckMethod := if exhaustive then .exhaustive else .sampled
  let tried := if exhaustive then h.tuples arity else (List.range c.samples).map draw
  match firstViolation? law 1 tried with
  | some (place, tuple) => ⟨property, .violated (tuple.map h.name), method, place⟩
  | none =>
      if exhaustive then ⟨property, .proven, method, tried.length⟩
      else ⟨property, .unfalsified, method, c.samples⟩

def checkProperty (c : LawCheck) (h : Hierarchy) (p : LatticeProperty) : CheckResult :=
  c.check h p p.arity (p.law h) (drawn h p.arity)

/-- The results of all properties, in order. -/
def run (c : LawCheck) (h : Hierarchy) : List CheckResult :=
  LatticeProperty.all.map (c.checkProperty h)

end LawCheck

end FlowTyping
