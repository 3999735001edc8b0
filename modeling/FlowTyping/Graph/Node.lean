import FlowTyping.Program.Syntax
import FlowTyping.Text.Quoted

/-!
Nodes: the atomic operations of a lowered unit. A node reads the values of the
nodes that it names as operands.
-/

namespace FlowTyping

abbrev BlockId := Nat

abbrev NodeId := Nat

inductive VarOrigin where
  | parameter | local
  deriving DecidableEq, Repr

/-- A local variable as seen where it is used, with the qualifier that its
declaration carries. -/
structure LocalVar where
  name : String
  declared : Option String
  origin : VarOrigin
  deriving DecidableEq, Repr

/-- What an assignment node writes to. -/
inductive NodeTarget where
  | local (var : LocalVar)
  | field (receiver : NodeId) (name : String)
  deriving DecidableEq, Repr

inductive NodeKind where
  | literal (value : Literal)
  | localRead (var : LocalVar)
  | this
  | fieldRead (receiver : NodeId) (field : String)
  | call (receiver : Option NodeId) (method : String) (args : List NodeId)
  | new (className : String) (args : List NodeId)
  | binary (op : BinOp) (lhs rhs : NodeId)
  | unary (op : UnaryOp) (operand : NodeId)
  | shortCircuit (op : BinOp) (lhs rhs : NodeId)
  | ternaryMerge (thenValue elseValue : NodeId)
  | cast (qualifier : String) (operand : NodeId)
  | localDecl (var : LocalVar)
  | assign (target : NodeTarget) (value : NodeId)
  | returnValue (value : Option NodeId)
  | throw (exception : String) (value : Option NodeId)
  | assertFailure
  deriving DecidableEq, Repr

namespace NodeKind

/-- The nodes whose values are read, in order. -/
def operands : NodeKind → List NodeId
  | literal _ | localRead _ | this | localDecl _ | assertFailure => []
  | fieldRead receiver _ => [receiver]
  | call receiver _ args => receiver.toList ++ args
  | new _ args => args
  | binary _ lhs rhs | shortCircuit _ lhs rhs => [lhs, rhs]
  | ternaryMerge thenValue elseValue => [thenValue, elseValue]
  | unary _ operand | cast _ operand => [operand]
  | assign (.local _) value => [value]
  | assign (.field receiver _) value => [receiver, value]
  | returnValue value | throw _ value => value.toList

/-- The variable that a node reads, declares or assigns to. -/
def localVar? : NodeKind → Option LocalVar
  | localRead var | localDecl var | assign (.local var) _ => some var
  | _ => none

private def argumentText (args : List NodeId) : String :=
  Text.join ", " (args.map fun a => s!"#{a}")

def text : NodeKind → String
  | literal (.string s) => Text.quoted s
  | literal (.char c) => Text.quotedChar c
  | literal value => value.text
  | localRead var => var.name
  | this => "this"
  | fieldRead receiver field => s!"#{receiver}.{field}"
  | call (some receiver) method args => s!"#{receiver}.{method}({argumentText args})"
  | call none method args => s!"{method}({argumentText args})"
  | new className args => s!"new {className}({argumentText args})"
  | binary op lhs rhs | shortCircuit op lhs rhs => s!"#{lhs} {op.symbol} #{rhs}"
  | unary op operand => s!"{op.symbol}#{operand}"
  | ternaryMerge thenValue elseValue => s!"? #{thenValue} : #{elseValue}"
  | cast qualifier operand => s!"(@{qualifier}) #{operand}"
  | localDecl ⟨name, some q, _⟩ => s!"decl @{q} {name}"
  | localDecl ⟨name, none, _⟩ => s!"decl {name}"
  | assign (.local var) value => s!"{var.name} = #{value}"
  | assign (.field receiver field) value => s!"#{receiver}.{field} = #{value}"
  | returnValue (some value) => s!"return #{value}"
  | returnValue none => "return"
  | throw exception _ => s!"throw {exception}"
  | assertFailure => "assert failed"

end NodeKind

/-- One atomic operation, and the block that lists it. -/
structure Node where
  id : NodeId
  block : BlockId
  kind : NodeKind
  deriving DecidableEq, Repr

end FlowTyping
