import FlowTyping.Lowering.Build

/-!
Lowering of units to graphs. An expression lowers to a value or to a test; the
frames around a statement hold the copies of final bodies, so the recursion follows
the syntax alone.
-/

namespace FlowTyping

open Build

/-- The two ways to lower an expression: to the node that holds its value, which is
the last one emitted, and to a test that jumps to one of two targets. -/
structure Lowered where
  value : Build NodeId
  test : BlockId → BlockId → Build Unit

namespace Lowered

/-- A test of a value that has no tests inside. -/
def ofValue (value : Build NodeId) : Lowered where
  value := value
  test thenTarget elseTarget := do branch (← value) thenTarget elseTarget

/-- Either operand decides or the other one is tested. As a value, both paths meet
in a merge node. -/
def shortCircuit (op : BinOp) (lhs rhs : Lowered) : Lowered where
  value := do
    let left ← lhs.value
    let rhsBlock ← newBlock
    let mergeBlock ← newBlock
    if op = .and then branch left rhsBlock mergeBlock
    else branch left mergeBlock rhsBlock
    setCurrent rhsBlock
    let right ← rhs.value
    closeWith mergeBlock
    setCurrent mergeBlock
    emit (.shortCircuit op left right)
  test thenTarget elseTarget := do
    let rhsBlock ← newBlock
    if op = .and then lhs.test rhsBlock elseTarget
    else lhs.test thenTarget rhsBlock
    setCurrent rhsBlock
    rhs.test thenTarget elseTarget

/-- A negation tests its operand with the targets exchanged. -/
def negation (operand : Lowered) : Lowered where
  value := do emit (.unary .not (← operand.value))
  test thenTarget elseTarget := operand.test elseTarget thenTarget

def ternary (condition thenValue elseValue : Lowered) : Lowered where
  value := do
    let thenBlock ← newBlock
    let elseBlock ← newBlock
    let mergeBlock ← newBlock
    condition.test thenBlock elseBlock
    setCurrent thenBlock
    let left ← thenValue.value
    closeWith mergeBlock
    setCurrent elseBlock
    let right ← elseValue.value
    closeWith mergeBlock
    setCurrent mergeBlock
    emit (.ternaryMerge left right)
  test thenTarget elseTarget := do
    let thenBlock ← newBlock
    let elseBlock ← newBlock
    condition.test thenBlock elseBlock
    setCurrent thenBlock
    thenValue.test thenTarget elseTarget
    setCurrent elseBlock
    elseValue.test thenTarget elseTarget

end Lowered

mutual

def lowerExpr (frames : List Frame) : Expr → Lowered
  | .literal value => .ofValue (emit (.literal value))
  | .var name => .ofValue do emit (.localRead (← lookup name))
  | .this => .ofValue (emit .this)
  | .field receiver name =>
      let receiver := lowerExpr frames receiver
      .ofValue do emit (.fieldRead (← receiver.value) name)
  | .call receiver method args throws =>
      let receiver := lowerReceiver frames receiver
      let args := lowerArgs frames args
      .ofValue do
        let r ← receiver
        let as ← args
        emitRaising frames (.call r method as) (runtimeException :: throws) false
  | .new className args =>
      let args := lowerArgs frames args
      .ofValue do
        let as ← args
        emitRaising frames (.new className as) [runtimeException] false
  | .binary op lhs rhs =>
      let lhs := lowerExpr frames lhs
      let rhs := lowerExpr frames rhs
      if op.isShortCircuit then .shortCircuit op lhs rhs
      else .ofValue do
        let left ← lhs.value
        let right ← rhs.value
        emit (.binary op left right)
  | .unary op operand =>
      let operand := lowerExpr frames operand
      if op = .not then .negation operand
      else .ofValue do emit (.unary op (← operand.value))
  | .ternary condition thenValue elseValue =>
      .ternary (lowerExpr frames condition) (lowerExpr frames thenValue)
        (lowerExpr frames elseValue)
  | .cast qualifier operand =>
      let operand := lowerExpr frames operand
      .ofValue do emit (.cast qualifier (← operand.value))

def lowerReceiver (frames : List Frame) : Option Expr → Build (Option NodeId)
  | none => return none
  | some e => do
      let id ← (lowerExpr frames e).value
      return some id

def lowerArgs (frames : List Frame) : List Expr → Build (List NodeId)
  | [] => return []
  | e :: rest => do
      let id ← (lowerExpr frames e).value
      let ids ← lowerArgs frames rest
      return id :: ids

end

def lowerOptional (frames : List Frame) (e : Option Expr) : Build (Option NodeId) :=
  lowerReceiver frames e

/-- Refuses an empty category and a category with two clauses. -/
def checkHandlers : List String → List String → Except GraphError Unit
  | _, [] => .ok ()
  | seen, category :: rest =>
      if category.isEmpty then .error .emptyExceptionCategory
      else if category ∈ seen then .error (.duplicateHandler category)
      else checkHandlers (category :: seen) rest

/-- A statement whose condition decides whether the unit goes on. -/
def lowerAssert (frames : List Frame) (condition : Expr) : Build Unit := do
  let holds ← newBlock
  let fails ← newBlock
  (lowerExpr frames condition).test holds fails
  setCurrent fails
  discard (emitRaising frames .assertFailure [assertionError] true)
  setCurrent holds

def lowerDecl (frames : List Frame) (name : String) (qualifier : Option String)
    (init : Option Expr) : Build Unit := do
  let value ← lowerOptional frames init
  let var : LocalVar := ⟨name, qualifier, .local⟩
  declare var
  discard (emit (.localDecl var))
  if let some value := value then discard (emit (.assign (.local var) value))

def lowerAssign (frames : List Frame) (target : Target) (value : Expr) : Build Unit := do
  match target with
  | .local name =>
      let value ← (lowerExpr frames value).value
      discard (emit (.assign (.local (← lookup name)) value))
  | .field receiver name =>
      let receiver ← (lowerExpr frames receiver).value
      let value ← (lowerExpr frames value).value
      discard (emit (.assign (.field receiver name) value))

/-- A counted loop, given the constructions of its parts. The variables of the
initial statements are visible in the whole loop. The result is the block after it. -/
def lowerFor (frames : List Frame) (label : Option String) (init : Build Unit)
    (condition : Option Expr) (update : Build Unit) (body : Frame → Build Unit) :
    Build BlockId := do
  modify fun b => { b with scopes := [] :: b.scopes }
  init
  let head ← newLoopHead
  closeWith head
  let testBlock ← newBlock
  link head testBlock
  let bodyBlock ← newBlock
  let updateBlock ← newBlock
  let exitBlock ← newBlock
  setCurrent testBlock
  match condition with
  | some condition => (lowerExpr frames condition).test bodyBlock exitBlock
  | none => closeWith bodyBlock
  setCurrent bodyBlock
  inScope (body (.loop label updateBlock exitBlock))
  closeWith updateBlock
  setCurrent updateBlock
  update
  closeWith head
  modify fun b => { b with scopes := b.scopes.drop 1 }
  return exitBlock

mutual

def lowerStmt (frames : List Frame) : Stmt → Build Unit
  | .localDecl name qualifier init => lowerDecl frames name qualifier init
  | .assign target value => lowerAssign frames target value
  | .expr value => discard (lowerExpr frames value).value
  | .ifElse condition thenBody elseBody => do
      let thenBlock ← newBlock
      let elseBlock ← newBlock
      let mergeBlock ← newBlock
      (lowerExpr frames condition).test thenBlock elseBlock
      setCurrent thenBlock
      inScope (lowerStmts frames thenBody)
      closeWith mergeBlock
      setCurrent elseBlock
      lowerElse frames elseBody
      closeWith mergeBlock
      setCurrent mergeBlock
  | .whileLoop label condition body => do
      let head ← newLoopHead
      closeWith head
      let testBlock ← newBlock
      link head testBlock
      let bodyBlock ← newBlock
      let exitBlock ← newBlock
      setCurrent testBlock
      (lowerExpr frames condition).test bodyBlock exitBlock
      setCurrent bodyBlock
      inScope (lowerStmts (.loop label head exitBlock :: frames) body)
      closeWith head
      setCurrent exitBlock
  | .doWhile label body condition => do
      let head ← newLoopHead
      closeWith head
      let bodyBlock ← newBlock
      link head bodyBlock
      let testBlock ← newBlock
      let exitBlock ← newBlock
      setCurrent bodyBlock
      inScope (lowerStmts (.loop label testBlock exitBlock :: frames) body)
      closeWith testBlock
      setCurrent testBlock
      (lowerExpr frames condition).test head exitBlock
      setCurrent exitBlock
  | .forLoop label init condition update body => do
      let exitBlock ← lowerFor frames label (lowerStmts frames init) condition
        (lowerStmts frames update) (fun frame => lowerStmts (frame :: frames) body)
      setCurrent exitBlock
  | .breakLoop label => jump frames label true
  | .continueLoop label => jump frames label false
  | .returnValue value => do
      let value ← lowerOptional frames value
      discard (emit (.returnValue value))
      closeWith (← leaveThrough (Frame.crossings frames) exitId)
  | .throw exception value => do
      let value ← lowerOptional frames value
      discard (emitRaising frames (.throw exception value) [exception] true)
  | .tryCatch body handlers finalBody => do
      checkHandlers [] (handlers.map Handler.exception)
      let after ← newBlock
      let targets ← handlers.mapM fun h => do
        let block ← newBlock
        return (h.exception, block)
      let crossed ← match lowerFinal frames finalBody with
        | none => pure []
        | some copy => do
            let id := (← get).nextFinal
            modify fun b => { b with nextFinal := id + 1 }
            pure [(⟨id, copy⟩ : Crossing)]
      let inner := crossed.map (fun c => Frame.finalBody c.id c.copy) ++ frames
      inScope (lowerStmts (.handlers targets :: inner) body)
      closeWith (← leaveThrough crossed after)
      lowerHandlers inner (do closeWith (← leaveThrough crossed after)) handlers
        (targets.map Prod.snd)
      setCurrent after
  | .assert condition => lowerAssert frames condition

def lowerStmts (frames : List Frame) : List Stmt → Build Unit
  | [] => return ()
  | s :: rest => do
      lowerStmt frames s
      lowerStmts frames rest

def lowerElse (frames : List Frame) : Option (List Stmt) → Build Unit
  | none => return ()
  | some body => inScope (lowerStmts frames body)

/-- The construction of a copy of a final body. -/
def lowerFinal (frames : List Frame) : Option (List Stmt) → Option (Build Unit)
  | none => none
  | some body => some (inScope (lowerStmts frames body))

/-- The clauses of a protected region, each in its block and then left. -/
def lowerHandlers (frames : List Frame) (leave : Build Unit) :
    List Handler → List BlockId → Build Unit
  | .clause _ binding body :: rest, block :: blocks => do
      setCurrent block
      inScope do
        if let some name := binding then
          let var : LocalVar := ⟨name, none, .local⟩
          declare var
          discard (emit (.localDecl var))
        lowerStmts frames body
      leave
      lowerHandlers frames leave rest blocks
  | _, _ => return ()

end

/-- The graph of a unit, or the first fault in its source. Falling off the end of
the body returns normally. -/
def ProgramUnit.lower (u : ProgramUnit) : Except GraphError FlowGraph := do
  let build : Build Unit := do
    let first ← newBlock
    link entryId first
    setCurrent first
    inScope (lowerStmts [] u.body)
    closeWith exitId
  let (_, b) ← build.run (Build.start u.params)
  Build.finish u.name b

end FlowTyping
