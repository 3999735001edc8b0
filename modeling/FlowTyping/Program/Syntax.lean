import FlowTyping.Literal

/-!
Programs: units with structured bodies. Qualifiers occur in them by name only.
-/

namespace FlowTyping

inductive BinOp where
  | add | sub | mul | div | rem | concat
  | eq | notEq | lt | ltEq | gt | gtEq
  | and | or
  deriving DecidableEq, Repr

namespace BinOp

def all : List BinOp :=
  [add, sub, mul, div, rem, concat, eq, notEq, lt, ltEq, gt, gtEq, and, or]

def isShortCircuit : BinOp → Bool
  | and | or => true
  | _ => false

def isEquality : BinOp → Bool
  | eq | notEq => true
  | _ => false

def isComparison : BinOp → Bool
  | eq | notEq | lt | ltEq | gt | gtEq => true
  | _ => false

def symbol : BinOp → String
  | add => "+"
  | sub => "-"
  | mul => "*"
  | div => "/"
  | rem => "%"
  | concat => "++"
  | eq => "=="
  | notEq => "!="
  | lt => "<"
  | ltEq => "<="
  | gt => ">"
  | gtEq => ">="
  | and => "&&"
  | or => "||"

def tag : BinOp → String
  | add => "add"
  | sub => "sub"
  | mul => "mul"
  | div => "div"
  | rem => "rem"
  | concat => "concat"
  | eq => "eq"
  | notEq => "not_eq"
  | lt => "lt"
  | ltEq => "lt_eq"
  | gt => "gt"
  | gtEq => "gt_eq"
  | and => "and"
  | or => "or"

end BinOp

inductive UnaryOp where
  | not | neg
  deriving DecidableEq, Repr

namespace UnaryOp

def all : List UnaryOp := [not, neg]

def symbol : UnaryOp → String
  | not => "!"
  | neg => "-"

def tag : UnaryOp → String
  | not => "not"
  | neg => "neg"

end UnaryOp

inductive Expr where
  | literal (value : Literal)
  | var (name : String)
  | this
  | field (receiver : Expr) (name : String)
  | call (receiver : Option Expr) (method : String) (args : List Expr) (throws : List String)
  | new (className : String) (args : List Expr)
  | binary (op : BinOp) (lhs rhs : Expr)
  | unary (op : UnaryOp) (operand : Expr)
  | ternary (condition thenValue elseValue : Expr)
  | cast (qualifier : String) (operand : Expr)
  deriving Inhabited, Repr

/-- What an assignment writes to. -/
inductive Target where
  | local (name : String)
  | field (receiver : Expr) (name : String)
  deriving Repr

mutual

inductive Stmt where
  | localDecl (name : String) (qualifier : Option String) (init : Option Expr)
  | assign (target : Target) (value : Expr)
  | expr (value : Expr)
  | ifElse (condition : Expr) (thenBody : List Stmt) (elseBody : Option (List Stmt))
  | whileLoop (label : Option String) (condition : Expr) (body : List Stmt)
  | doWhile (label : Option String) (body : List Stmt) (condition : Expr)
  | forLoop (label : Option String) (init : List Stmt) (condition : Option Expr)
      (update body : List Stmt)
  | breakLoop (label : Option String)
  | continueLoop (label : Option String)
  | returnValue (value : Option Expr)
  | throw (exception : String) (value : Option Expr)
  | tryCatch (body : List Stmt) (handlers : List Handler) (finalBody : Option (List Stmt))
  | assert (condition : Expr)

/-- A clause of a protected region. The category `*` catches everything. -/
inductive Handler where
  | clause (exception : String) (binding : Option String) (body : List Stmt)

end

namespace Handler

def exception : Handler → String
  | clause e _ _ => e

def binding : Handler → Option String
  | clause _ b _ => b

def body : Handler → List Stmt
  | clause _ _ b => b

end Handler

structure Parameter where
  name : String
  qualifier : Option String
  deriving DecidableEq, Repr

/-- One analysed unit, such as the body of a method. -/
structure ProgramUnit where
  name : String
  params : List Parameter
  returnQualifier : Option String
  body : List Stmt

structure Program where
  units : List ProgramUnit

/-- The first unit of a name. -/
def Program.unit? (p : Program) (name : String) : Option ProgramUnit :=
  p.units.find? fun u => u.name = name

end FlowTyping
