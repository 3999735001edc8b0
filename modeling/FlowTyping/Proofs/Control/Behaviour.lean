import FlowTyping.Lowering.Build

/-!
What units do: the traces of the structured semantics. A leaf test may come out
either way, and a raising operation may complete or raise any of its categories.
-/

namespace FlowTyping

/-- The operation of a node, without the ids that it reads. -/
inductive Operation where
  | literal (value : Literal)
  | localRead (name : String)
  | this
  | fieldRead (field : String)
  | call (method : String)
  | new (className : String)
  | binary (op : BinOp)
  | unary (op : UnaryOp)
  | shortCircuit (op : BinOp)
  | ternaryMerge
  | cast (qualifier : String)
  | localDecl (name : String) (qualifier : Option String)
  | assignLocal (name : String)
  | assignField (field : String)
  | returnValue
  | throw (exception : String)
  | assertFailure
  deriving DecidableEq, Repr

/-- What can be seen of a run. -/
inductive Event where
  | operation (op : Operation)
  | outcome (value : Bool)
  | completed
  | raised (category : String)
  deriving DecidableEq, Repr

abbrev Trace := List Event

/-- The ways to leave a statement other than its end. -/
inductive Departure where
  | broke (label : Option String)
  | continued (label : Option String)
  | returned
  | raised (category : String)
  deriving DecidableEq, Repr

/-- The complete runs of a piece of code: each gives a result after a trace. -/
def Run (α : Type) : Type := Except Departure α → Trace → Prop

namespace Run

variable {α β : Type}

/-- Gives a result at once. -/
def give (result : Except Departure α) : Run α := fun r τ => r = result ∧ τ = []

/-- Goes on from any result. -/
def handle (m : Run α) (f : Except Departure α → Run β) : Run β := fun r τ =>
  ∃ r₁ τ₁ τ₂, m r₁ τ₁ ∧ f r₁ r τ₂ ∧ τ = τ₁ ++ τ₂

instance : Monad Run where
  pure a := give (.ok a)
  bind m f := m.handle fun
    | .ok a => f a
    | .error departure => give (.error departure)

def leave (departure : Departure) : Run α := give (.error departure)

def perform (op : Operation) : Run Unit := fun r τ => r = .ok () ∧ τ = [.operation op]

/-- A leaf test. -/
def either : Run Bool := fun r τ => ∃ b, r = .ok b ∧ τ = [.outcome b]

/-- What follows an operation that may raise some categories. A terminal one never
completes. -/
def settle (categories : List String) (terminal : Bool) : Run Unit := fun r τ =>
  (terminal = false ∧ r = .ok () ∧ τ = [.completed]) ∨
    ∃ category ∈ categories, r = .error (.raised category) ∧ τ = [.raised category]

def raising (op : Operation) (categories : List String) (terminal : Bool) : Run Unit := do
  perform op
  settle categories terminal

/-- Rounds until one of them says that it was the last one, or is left. -/
inductive loop (round : Run Bool) : Run Unit
  | last {τ : Trace} (h : round (.ok false) τ) : loop round (.ok ()) τ
  | left {departure : Departure} {τ : Trace} (h : round (.error departure) τ) :
      loop round (.error departure) τ
  | again {r : Except Departure Unit} {τ₁ τ₂ : Trace} (h : round (.ok true) τ₁)
      (rest : loop round r τ₂) : loop round r (τ₁ ++ τ₂)

/-- A jump without a label is about every loop, another one about the loops of its
label. -/
def addresses (jump label : Option String) : Bool := jump.isNone || label = jump

/-- The body of a loop of a label: whether the loop goes on after it. -/
def inLoop (label : Option String) (body : Run Unit) : Run Bool := body.handle fun
  | .ok () => pure true
  | .error (.continued jump) =>
      if addresses jump label then pure true else leave (.continued jump)
  | .error (.broke jump) => if addresses jump label then pure false else leave (.broke jump)
  | .error departure => leave departure

/-- The second part of a round runs only if the first one does not end the loop. -/
def andAlso (m m' : Run Bool) : Run Bool := do
  let again ← m
  bif again then m' else pure false

/-- Clauses for the categories raised by a body. -/
def catching (body : Run Unit) (clauses : String → Run Unit) : Run Unit := body.handle fun
  | .error (.raised category) => clauses category
  | r => give r

/-- A final body runs after every result, and replaces it unless it completes. -/
def finally_ (body final : Run Unit) : Run Unit := body.handle fun r => final.handle fun
  | .ok () => give r
  | .error departure => leave departure

end Run

open Run

/-- What an expression does as a value and as a test. -/
structure Meaning where
  value : Run Unit
  test : Run Bool

/-- Whether the outcome of the left operand decides a short-circuit operation. -/
def BinOp.decidedBy (op : BinOp) (outcome : Bool) : Bool :=
  if op = .and then !outcome else outcome

namespace Meaning

def ofValue (value : Run Unit) : Meaning where
  value := value
  test := do
    value
    either

def shortCircuit (op : BinOp) (lhs rhs : Meaning) : Meaning where
  value := do
    lhs.value
    let outcome ← either
    bif op.decidedBy outcome then pure () else rhs.value
    perform (.shortCircuit op)
  test := do
    let outcome ← lhs.test
    bif op.decidedBy outcome then pure outcome else rhs.test

def negation (operand : Meaning) : Meaning where
  value := do
    operand.value
    perform (.unary .not)
  test := do
    let outcome ← operand.test
    pure !outcome

def ternary (condition thenValue elseValue : Meaning) : Meaning where
  value := do
    let outcome ← condition.test
    bif outcome then thenValue.value else elseValue.value
    perform .ternaryMerge
  test := do
    let outcome ← condition.test
    bif outcome then thenValue.test else elseValue.test

end Meaning

mutual

def Expr.meaning : Expr → Meaning
  | .literal value => .ofValue (perform (.literal value))
  | .var name => .ofValue (perform (.localRead name))
  | .this => .ofValue (perform .this)
  | .field receiver name => .ofValue do
      receiver.meaning.value
      perform (.fieldRead name)
  | .call receiver method args throws => .ofValue do
      Expr.optionRuns receiver
      Expr.listRuns args
      raising (.call method) (runtimeException :: throws) false
  | .new className args => .ofValue do
      Expr.listRuns args
      raising (.new className) [runtimeException] false
  | .binary op lhs rhs =>
      if op.isShortCircuit then .shortCircuit op lhs.meaning rhs.meaning
      else .ofValue do
        lhs.meaning.value
        rhs.meaning.value
        perform (.binary op)
  | .unary op operand =>
      if op = .not then .negation operand.meaning
      else .ofValue do
        operand.meaning.value
        perform (.unary op)
  | .ternary condition thenValue elseValue =>
      .ternary condition.meaning thenValue.meaning elseValue.meaning
  | .cast qualifier operand => .ofValue do
      operand.meaning.value
      perform (.cast qualifier)

def Expr.optionRuns : Option Expr → Run Unit
  | none => pure ()
  | some e => e.meaning.value

def Expr.listRuns : List Expr → Run Unit
  | [] => pure ()
  | e :: rest => do
      e.meaning.value
      Expr.listRuns rest

end

def Expr.tests (condition : Expr) : Run Bool := condition.meaning.test

/-- The test of a counted loop. -/
def Expr.optionTests : Option Expr → Run Bool
  | none => pure true
  | some condition => condition.tests

/-- A clause declares the variable that it binds. -/
def Handler.binds : Option String → Run Unit
  | none => pure ()
  | some name => perform (.localDecl name none)

mutual

def Stmt.runs : Stmt → Run Unit
  | .localDecl name qualifier init => do
      Expr.optionRuns init
      perform (.localDecl name qualifier)
      bif init.isSome then perform (.assignLocal name) else pure ()
  | .assign (.local name) value => do
      value.meaning.value
      perform (.assignLocal name)
  | .assign (.field receiver name) value => do
      receiver.meaning.value
      value.meaning.value
      perform (.assignField name)
  | .expr value => value.meaning.value
  | .ifElse condition thenBody elseBody => do
      let outcome ← condition.tests
      bif outcome then Stmt.listRuns thenBody else Stmt.optionRuns elseBody
  | .whileLoop label condition body =>
      loop (andAlso condition.tests (inLoop label (Stmt.listRuns body)))
  | .doWhile label body condition =>
      loop (andAlso (inLoop label (Stmt.listRuns body)) condition.tests)
  | .forLoop label init condition update body => do
      Stmt.listRuns init
      loop (andAlso (Expr.optionTests condition) (andAlso (inLoop label (Stmt.listRuns body)) do
        Stmt.listRuns update
        pure true))
  | .breakLoop label => leave (.broke label)
  | .continueLoop label => leave (.continued label)
  | .returnValue value => do
      Expr.optionRuns value
      perform .returnValue
      leave .returned
  | .throw exception value => do
      Expr.optionRuns value
      raising (.throw exception) [exception] true
  | .tryCatch body handlers finalBody =>
      finally_ (catching (Stmt.listRuns body) (Stmt.catches handlers))
        (Stmt.optionRuns finalBody)
  | .assert condition => do
      let outcome ← condition.tests
      bif outcome then pure () else raising .assertFailure [assertionError] true

def Stmt.listRuns : List Stmt → Run Unit
  | [] => pure ()
  | s :: rest => do
      s.runs
      Stmt.listRuns rest

def Stmt.optionRuns : Option (List Stmt) → Run Unit
  | none => pure ()
  | some body => Stmt.listRuns body

/-- The first clause that names a category or catches all. A category that no clause
catches stays raised. -/
def Stmt.catches : List Handler → String → Run Unit
  | [], category => leave (.raised category)
  | .clause exception binding body :: rest, category =>
      if exception = category || exception = catchAll then do
        Handler.binds binding
        Stmt.listRuns body
      else Stmt.catches rest category

end

/-- The traces after which a unit returns, at its end or early. -/
def ProgramUnit.Returns (u : ProgramUnit) (τ : Trace) : Prop :=
  Stmt.listRuns u.body (.ok ()) τ ∨ Stmt.listRuns u.body (.error .returned) τ

/-- The traces after which a category escapes from a unit. -/
def ProgramUnit.Escapes (u : ProgramUnit) (τ : Trace) : Prop :=
  ∃ category, Stmt.listRuns u.body (.error (.raised category)) τ

end FlowTyping
