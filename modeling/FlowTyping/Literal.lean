import FlowTyping.Json.Shape
import FlowTyping.Number.Double

/-!
Literals, and the kinds of syntax a rule can name.
-/

namespace FlowTyping

inductive LiteralKind where
  | string | char | int | float | bool | null
  deriving DecidableEq, Repr

namespace LiteralKind

def all : List LiteralKind := [string, char, int, float, bool, null]

/-- The name in documents. -/
def tag : LiteralKind → String
  | string => "string"
  | char => "char"
  | int => "int"
  | float => "float"
  | bool => "bool"
  | null => "null"

/-- The name in descriptions. -/
def label : LiteralKind → String
  | string => "String"
  | char => "Char"
  | int => "Int"
  | float => "Float"
  | bool => "Bool"
  | null => "Null"

def read? (v : Json) : Option LiteralKind := v.name? (all.map fun k => (k.tag, k))

def write (k : LiteralKind) : Json := .str k.tag

end LiteralKind

/-- Elements that can carry a qualifier without naming one. -/
inductive SyntaxKind where
  | newObject | comparison | concatenation | arithmetic
  | localVariable | parameter | field | methodReturn
  deriving DecidableEq, Repr

namespace SyntaxKind

def all : List SyntaxKind :=
  [newObject, comparison, concatenation, arithmetic, localVariable, parameter, field,
    methodReturn]

def tag : SyntaxKind → String
  | newObject => "new_object"
  | comparison => "comparison"
  | concatenation => "concatenation"
  | arithmetic => "arithmetic"
  | localVariable => "local_variable"
  | parameter => "parameter"
  | field => "field"
  | methodReturn => "method_return"

def label : SyntaxKind → String
  | newObject => "NewObject"
  | comparison => "Comparison"
  | concatenation => "Concatenation"
  | arithmetic => "Arithmetic"
  | localVariable => "LocalVariable"
  | parameter => "Parameter"
  | field => "Field"
  | methodReturn => "MethodReturn"

def read? (v : Json) : Option SyntaxKind := v.name? (all.map fun k => (k.tag, k))

def write (k : SyntaxKind) : Json := .str k.tag

end SyntaxKind

inductive Literal where
  | string (value : String)
  | char (value : Char)
  | int (value : Int)
  | float (value : Double)
  | bool (value : Bool)
  | null
  deriving DecidableEq, Repr

namespace Literal

def kind : Literal → LiteralKind
  | string _ => .string
  | char _ => .char
  | int _ => .int
  | float _ => .float
  | bool _ => .bool
  | null => .null

/-- The text of a literal without quotes. -/
def text : Literal → String
  | string s => s
  | char c => String.singleton c
  | int n => toString n
  | float x => x.positional
  | bool true => "true"
  | bool false => "false"
  | null => "null"

def read? (v : Json) : Option Literal := do
  let (name, payload) ← v.choice?
  match name with
  | "string" => payload.bind fun v => v.string?.map string
  | "char" => payload.bind fun v => v.char?.map char
  | "int" => payload.bind fun v => v.signed?.map int
  | "float" => payload.bind fun v => v.double?.map float
  | "bool" => payload.bind fun v => v.bool?.map bool
  | "null" => if payload.isNone || payload matches some .null then some null else none
  | _ => none

def write : Literal → Json
  | string s => .tagged "string" (.str s)
  | char c => .tagged "char" (.str (String.singleton c))
  | int n => .tagged "int" (.int n)
  | float x => .tagged "float" (.double x)
  | bool b => .tagged "bool" (.bool b)
  | null => .str "null"

end Literal

end FlowTyping
