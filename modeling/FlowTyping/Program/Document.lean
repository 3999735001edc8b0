import FlowTyping.Json.Read
import FlowTyping.Json.Write
import FlowTyping.Program.Syntax

/-!
Programs as documents. Every level of an expression or statement is at least one
level of its document, so the depth of the document bounds the reading.
-/

namespace FlowTyping

open Json (required defaulted nullable optional? list?)

def BinOp.read? (v : Json) : Option BinOp := v.name? (BinOp.all.map fun op => (op.tag, op))

def BinOp.write (op : BinOp) : Json := .str op.tag

def UnaryOp.read? (v : Json) : Option UnaryOp :=
  v.name? (UnaryOp.all.map fun op => (op.tag, op))

def UnaryOp.write (op : UnaryOp) : Json := .str op.tag

namespace Expr

/-- The expression of a document at most `fuel` deep. -/
def readWithin : Nat → Json → Option Expr
  | 0, _ => none
  | fuel + 1, v => do
      let (name, payload) ← v.choice?
      match name with
      | "literal" => return literal (← payload.bind Literal.read?)
      | "var" => return var (← payload.bind Json.string?)
      | "this" => if payload.isNone || payload matches some .null then some this else none
      | "field" =>
          let r ← payload.bind (Json.record? ["receiver", "field"])
          return field (← required (readWithin fuel) (r "receiver"))
            (← required Json.string? (r "field"))
      | "call" =>
          let r ← payload.bind (Json.record? ["receiver", "method", "args", "throws"])
          return call (← nullable (readWithin fuel) (r "receiver"))
            (← required Json.string? (r "method"))
            (← defaulted (list? (readWithin fuel)) [] (r "args"))
            (← defaulted (list? Json.string?) [] (r "throws"))
      | "new" =>
          let r ← payload.bind (Json.record? ["class", "args"])
          return new (← required Json.string? (r "class"))
            (← defaulted (list? (readWithin fuel)) [] (r "args"))
      | "binary" =>
          let r ← payload.bind (Json.record? ["op", "lhs", "rhs"])
          return binary (← required BinOp.read? (r "op"))
            (← required (readWithin fuel) (r "lhs")) (← required (readWithin fuel) (r "rhs"))
      | "unary" =>
          let r ← payload.bind (Json.record? ["op", "operand"])
          return unary (← required UnaryOp.read? (r "op"))
            (← required (readWithin fuel) (r "operand"))
      | "ternary" =>
          let r ← payload.bind (Json.record? ["condition", "then_value", "else_value"])
          return ternary (← required (readWithin fuel) (r "condition"))
            (← required (readWithin fuel) (r "then_value"))
            (← required (readWithin fuel) (r "else_value"))
      | "cast" =>
          let r ← payload.bind (Json.record? ["qualifier", "operand"])
          return cast (← required Json.string? (r "qualifier"))
            (← required (readWithin fuel) (r "operand"))
      | _ => none

def read? (v : Json) : Option Expr := readWithin (v.depth + 1) v

mutual

def write : Expr → Json
  | literal value => .tagged "literal" value.write
  | var name => .tagged "var" (.str name)
  | this => .str "this"
  | field receiver name =>
      .tagged "field" (.obj [("receiver", write receiver), ("field", .str name)])
  | call receiver method args throws =>
      .tagged "call" (.obj [("receiver", writeOption receiver), ("method", .str method),
        ("args", .arr (writeList args)), ("throws", .ofList .str throws)])
  | new className args =>
      .tagged "new" (.obj [("class", .str className), ("args", .arr (writeList args))])
  | binary op lhs rhs =>
      .tagged "binary" (.obj [("op", op.write), ("lhs", write lhs), ("rhs", write rhs)])
  | unary op operand =>
      .tagged "unary" (.obj [("op", op.write), ("operand", write operand)])
  | ternary condition thenValue elseValue =>
      .tagged "ternary" (.obj [("condition", write condition),
        ("then_value", write thenValue), ("else_value", write elseValue)])
  | cast qualifier operand =>
      .tagged "cast" (.obj [("qualifier", .str qualifier), ("operand", write operand)])

def writeOption : Option Expr → Json
  | none => .null
  | some e => write e

def writeList : List Expr → List Json
  | [] => []
  | e :: rest => write e :: writeList rest

end

end Expr

namespace Target

def read? (v : Json) : Option Target := do
  let (name, payload) ← v.choice?
  match name with
  | "local" => return .local (← payload.bind Json.string?)
  | "field" =>
      let r ← payload.bind (Json.record? ["receiver", "field"])
      return field (← required Expr.read? (r "receiver")) (← required Json.string? (r "field"))
  | _ => none

def write : Target → Json
  | .local name => .tagged "local" (.str name)
  | field receiver name =>
      .tagged "field" (.obj [("receiver", receiver.write), ("field", .str name)])

end Target

namespace Stmt

def handlerWithin (body : Json → Option (List Stmt)) (v : Json) : Option Handler := do
  let r ← v.record? ["exception", "binding", "body"]
  return .clause (← required Json.string? (r "exception"))
    (← nullable Json.string? (r "binding")) (← required body (r "body"))

/-- The statement of a document at most `fuel` deep. -/
def readWithin : Nat → Json → Option Stmt
  | 0, _ => none
  | fuel + 1, v => do
      let body := list? (readWithin fuel)
      let (name, payload) ← v.choice?
      match name with
      | "local_decl" =>
          let r ← payload.bind (Json.record? ["name", "qualifier", "init"])
          return localDecl (← required Json.string? (r "name"))
            (← nullable Json.string? (r "qualifier")) (← nullable Expr.read? (r "init"))
      | "assign" =>
          let r ← payload.bind (Json.record? ["target", "value"])
          return assign (← required Target.read? (r "target"))
            (← required Expr.read? (r "value"))
      | "expr" => return expr (← payload.bind Expr.read?)
      | "if" =>
          let r ← payload.bind (Json.record? ["condition", "then_body", "else_body"])
          return ifElse (← required Expr.read? (r "condition"))
            (← required body (r "then_body")) (← nullable body (r "else_body"))
      | "while" =>
          let r ← payload.bind (Json.record? ["label", "condition", "body"])
          return whileLoop (← nullable Json.string? (r "label"))
            (← required Expr.read? (r "condition")) (← required body (r "body"))
      | "do_while" =>
          let r ← payload.bind (Json.record? ["label", "body", "condition"])
          return doWhile (← nullable Json.string? (r "label"))
            (← required body (r "body")) (← required Expr.read? (r "condition"))
      | "for" =>
          let r ← payload.bind
            (Json.record? ["label", "init", "condition", "update", "body"])
          return forLoop (← nullable Json.string? (r "label"))
            (← defaulted body [] (r "init")) (← nullable Expr.read? (r "condition"))
            (← defaulted body [] (r "update")) (← required body (r "body"))
      | "break" => return breakLoop (← payload.bind (optional? Json.string?))
      | "continue" => return continueLoop (← payload.bind (optional? Json.string?))
      | "return" => return returnValue (← payload.bind (optional? Expr.read?))
      | "throw" =>
          let r ← payload.bind (Json.record? ["exception", "value"])
          return throw (← required Json.string? (r "exception"))
            (← nullable Expr.read? (r "value"))
      | "try" =>
          let r ← payload.bind (Json.record? ["body", "handlers", "finally"])
          return tryCatch (← required body (r "body"))
            (← defaulted (list? (handlerWithin body)) [] (r "handlers"))
            (← nullable body (r "finally"))
      | "assert" =>
          let r ← payload.bind (Json.record? ["condition"])
          return assert (← required Expr.read? (r "condition"))
      | _ => none

def read? (v : Json) : Option Stmt := readWithin (v.depth + 1) v

mutual

def write : Stmt → Json
  | localDecl name qualifier init =>
      .tagged "local_decl" (.obj [("name", .str name), ("qualifier", .ofOption .str qualifier),
        ("init", .ofOption Expr.write init)])
  | assign target value =>
      .tagged "assign" (.obj [("target", target.write), ("value", value.write)])
  | expr value => .tagged "expr" value.write
  | ifElse condition thenBody elseBody =>
      .tagged "if" (.obj [("condition", condition.write),
        ("then_body", .arr (writeList thenBody)), ("else_body", writeOption elseBody)])
  | whileLoop label condition body =>
      .tagged "while" (.obj [("label", .ofOption .str label), ("condition", condition.write),
        ("body", .arr (writeList body))])
  | doWhile label body condition =>
      .tagged "do_while" (.obj [("label", .ofOption .str label),
        ("body", .arr (writeList body)), ("condition", condition.write)])
  | forLoop label init condition update body =>
      .tagged "for" (.obj [("label", .ofOption .str label), ("init", .arr (writeList init)),
        ("condition", .ofOption Expr.write condition), ("update", .arr (writeList update)),
        ("body", .arr (writeList body))])
  | breakLoop label => .tagged "break" (.ofOption .str label)
  | continueLoop label => .tagged "continue" (.ofOption .str label)
  | returnValue value => .tagged "return" (.ofOption Expr.write value)
  | throw exception value =>
      .tagged "throw" (.obj [("exception", .str exception),
        ("value", .ofOption Expr.write value)])
  | tryCatch body handlers finalBody =>
      .tagged "try" (.obj [("body", .arr (writeList body)),
        ("handlers", .arr (writeHandlers handlers)), ("finally", writeOption finalBody)])
  | assert condition => .tagged "assert" (.obj [("condition", condition.write)])

def writeList : List Stmt → List Json
  | [] => []
  | s :: rest => write s :: writeList rest

def writeOption : Option (List Stmt) → Json
  | none => .null
  | some body => .arr (writeList body)

def writeHandlers : List Handler → List Json
  | [] => []
  | .clause exception binding body :: rest =>
      .obj [("exception", .str exception), ("binding", .ofOption .str binding),
        ("body", .arr (writeList body))] :: writeHandlers rest

end

end Stmt

namespace Parameter

def read? (v : Json) : Option Parameter := do
  let r ← v.record? ["name", "qualifier"]
  return ⟨← required Json.string? (r "name"), ← nullable Json.string? (r "qualifier")⟩

def write (p : Parameter) : Json :=
  .obj [("name", .str p.name), ("qualifier", .ofOption .str p.qualifier)]

end Parameter

namespace ProgramUnit

def read? (v : Json) : Option ProgramUnit := do
  let r ← v.record? ["name", "params", "return_qualifier", "body"]
  return {
    name := ← required Json.string? (r "name")
    params := ← defaulted (list? Parameter.read?) [] (r "params")
    returnQualifier := ← nullable Json.string? (r "return_qualifier")
    body := ← required (list? Stmt.read?) (r "body") }

def write (u : ProgramUnit) : Json :=
  .obj [("name", .str u.name), ("params", .ofList Parameter.write u.params),
    ("return_qualifier", .ofOption .str u.returnQualifier),
    ("body", .arr (Stmt.writeList u.body))]

end ProgramUnit

namespace Program

def read? (v : Json) : Option Program := do
  let r ← v.record? ["units"]
  return ⟨← required (list? ProgramUnit.read?) (r "units")⟩

def write (p : Program) : Json := .obj [("units", .ofList ProgramUnit.write p.units)]

end Program

end FlowTyping
