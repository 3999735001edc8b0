import FlowTyping.Lowering.Lower

/-!
The construction of a graph under watch. It takes the same steps, keeps the stack of the regions
that it is in, and stops where a block is connected whose exit is taken, where a node is added to a
block whose exit is decided, or where a part does not leave the regions and scopes as it found them.
-/

namespace FlowTyping

namespace Exits

/-- An exit that is connected when it is linked. -/
def isFree : Exits → Bool
  | openEnd | raise none _ false | special _ none => true
  | _ => false

/-- A free exit is one that linking changes. -/
theorem isFree_iff (exits : Exits) (target : BlockId) :
    exits.isFree = true ↔ exits.link target ≠ exits := by
  cases exits with
  | openEnd | goto | branch => simp [isFree, link]
  | raise successor handlers terminal =>
      cases successor <;> cases terminal <;> simp [isFree, link]
  | special kind successor => cases successor <;> simp [isFree, link]

end Exits

/-- A region that control is in, as the stack of the open ones lists it. -/
inductive OpenRegion where
  | loop (label : Option String) (continueTarget breakTarget : BlockId)
  | handlers (targets : List (String × BlockId))
  | finalBody (id : Nat)
  deriving DecidableEq, Repr

namespace OpenRegion

/-- The number of regions inside the nearest clause for a category, and its block. -/
def findHandler (category : String) : List OpenRegion → Option (Nat × BlockId)
  | [] => none
  | region :: outer =>
      let further := (findHandler category outer).map fun found => (found.1 + 1, found.2)
      match region with
      | handlers targets =>
          match targets.find? fun t => t.1 = category || t.1 = catchAll with
          | some t => some (0, t.2)
          | none => further
      | _ => further

/-- The number of regions inside the nearest loop that a label means, and its targets. -/
def findLoop (label : Option String) : List OpenRegion → Option (Nat × BlockId × BlockId)
  | [] => none
  | region :: outer =>
      let further := (findLoop label outer).map fun found => (found.1 + 1, found.2)
      match region with
      | loop name continueTarget breakTarget =>
          if label.isNone || name = label then some (0, continueTarget, breakTarget) else further
      | _ => further

end OpenRegion

/-- The state of a construction and the open regions, innermost first. -/
structure Watch where
  building : Building
  regions : List OpenRegion

/-- A construction that may stop. One that does not stop has a result or a fault of the source. -/
abbrev Watched := StateT Watch (ExceptT GraphError Option)

namespace Watched

variable {α : Type}

/-- What becomes of a construction: nothing where it stops. -/
def outcome (x : Watched α) (w : Watch) : Option (Except GraphError (α × Watch)) := (x.run w).run

/-- A part of the plain construction. It is used for what connects no blocks and adds no nodes. -/
def plain (m : Build α) : Watched α := fun w =>
  ExceptT.mk (some ((m.run w.building).map fun r => (r.1, { w with building := r.2 })))

/-- Stops where the state does not fit. -/
def require (fits : Watch → Bool) : Watched Unit := fun w =>
  ExceptT.mk (if fits w then some (.ok ((), w)) else none)

/-- Stops where a part changes the stack of regions or the depth of the scopes. -/
def balanced (x : Watched α) : Watched α := do
  let before ← get
  let a ← x
  require fun w => w.regions = before.regions &&
    w.building.scopes.length = before.building.scopes.length
  return a

/-- Enters a region, and leaves the innermost one at the end. -/
def within (region : OpenRegion) (x : Watched α) : Watched α := do
  modify fun w => { w with regions := region :: w.regions }
  let a ← x
  modify fun w => { w with regions := w.regions.drop 1 }
  return a

/-- Leaves the regions down to a depth. -/
def truncate (depth : Nat) : Watched Unit :=
  modify fun w => { w with regions := w.regions.drop (w.regions.length - depth) }

/-- Connects a block, whose exit has to be free. -/
def link (source target : BlockId) : Watched Unit := do
  require fun w => w.building.drafts[source]?.any (·.exits.isFree)
  plain (Build.link source target)

/-- Adds a node to a block, whose exit has to be open. -/
def pushNode (block : BlockId) (kind : NodeKind) : Watched NodeId := do
  require fun w => w.building.drafts[block]?.any (·.exits = .openEnd)
  plain (Build.pushNode block kind)

/-- Decides the exit of a block, which has to be open. -/
def raise (block : BlockId) (handlers : List (String × BlockId)) (terminal : Bool) :
    Watched Unit := do
  require fun w => w.building.drafts[block]?.any (·.exits = .openEnd)
  plain (Build.modifyDraft block fun d => { d with exits := .raise none handlers terminal })

def newBlock : Watched BlockId := plain Build.newBlock

def newLoopHead : Watched BlockId := plain Build.newLoopHead

def setCurrent (block : Option BlockId) : Watched Unit := plain (Build.setCurrent block)

def draft (block : BlockId) : Watched Draft := plain (Build.draft block)

def declare (var : LocalVar) : Watched Unit := plain (Build.declare var)

def lookup (name : String) : Watched LocalVar := plain (Build.lookup name)

def closeWith (target : BlockId) : Watched Unit := do
  if let some block := (← get).building.current then link block target
  setCurrent none

def nextBlock : Watched BlockId := do
  let previous := (← get).building.current
  let block ← newBlock
  if let some previous := previous then link previous block
  return block

def openBlock : Watched BlockId := do
  if let some block := (← get).building.current then
    if (← draft block).exits = .openEnd then return block
  let block ← nextBlock
  setCurrent block
  return block

def emit (kind : NodeKind) : Watched NodeId := do
  pushNode (← openBlock) kind

def branch (condition : NodeId) (thenTarget elseTarget : BlockId) : Watched Unit := do
  let source := ((← get).building.nodes[condition]?.map Node.block).getD 0
  let test ← plain (Build.newDraft (.branch condition thenTarget elseTarget))
  link source test
  setCurrent none

/-- Runs a construction in a scope of its own. -/
def inScope (body : Watched Unit) : Watched Unit := do
  plain (modify fun b => { b with scopes := [] :: b.scopes })
  body
  plain (modify fun b => { b with scopes := b.scopes.drop 1 })

/-- What surrounds a statement. A final body comes with the construction of a copy of it. -/
inductive Frame where
  | loop (label : Option String) (continueTarget breakTarget : BlockId)
  | handlers (targets : List (String × BlockId))
  | finalBody (id : Nat) (copy : Watched Unit)

/-- A final body that a path leaves through, and the number of regions around it. -/
structure Crossing where
  id : Nat
  depth : Nat
  copy : Watched Unit

namespace Frame

def region : Frame → OpenRegion
  | loop label continueTarget breakTarget => .loop label continueTarget breakTarget
  | handlers targets => .handlers targets
  | finalBody id _ => .finalBody id

/-- The final bodies among the innermost frames, as many as are left. -/
def crossed : Nat → List Frame → List Crossing
  | 0, _ | _, [] => []
  | count + 1, frame :: outer =>
      match frame with
      | finalBody id copy => ⟨id, outer.length, copy⟩ :: crossed count outer
      | _ => crossed count outer

end Frame

/-- The entry of a path to `target` that leaves the innermost frames, which are those of the open
regions, through a copy of each final body among them. -/
def leaveThrough (frames : List Frame) (count : Nat) (target : BlockId) : Watched BlockId :=
  balanced do
    require fun w => w.regions = frames.map Frame.region
    let crossed := Frame.crossed count frames
    if crossed.isEmpty then return target
    let key := (crossed.map Crossing.id, target)
    match (← get).building.finalPaths.find? fun path => path.1 = key with
    | some path => return path.2
    | none =>
        let saved ← get
        let first ← newBlock
        setCurrent first
        crossed.forM fun crossing => do
          truncate crossing.depth
          balanced crossing.copy
        closeWith target
        modify fun w => { w with regions := saved.regions }
        setCurrent saved.building.current
        plain (modify fun b => { b with finalPaths := (key, first) :: b.finalPaths })
        return first

def exceptionTarget (frames : List Frame) (category : String) : Watched BlockId := do
  match OpenRegion.findHandler category (← get).regions with
  | some (count, target) => leaveThrough frames count target
  | none => leaveThrough frames frames.length Build.exceptionalExitId

def exceptionTargets (frames : List Frame) :
    List String → List (String × BlockId) → Watched (List (String × BlockId))
  | [], routed => return routed
  | category :: rest, routed => do
      if category.isEmpty then plain (throw .emptyExceptionCategory)
      if routed.any fun r => r.1 = category then exceptionTargets frames rest routed
      else
        let target ← exceptionTarget frames category
        exceptionTargets frames rest (routed ++ [(category, target)])

def emitRaising (frames : List Frame) (kind : NodeKind) (categories : List String)
    (terminal : Bool) : Watched NodeId := do
  let handlers ← exceptionTargets frames categories []
  let reusable ← match (← get).building.current with
    | none => pure none
    | some block => do
        let d ← draft block
        pure (if d.exits = .openEnd && d.nodes.isEmpty then some block else none)
  let block ← match reusable with
    | some block => pure block
    | none => nextBlock
  let id ← pushNode block kind
  raise block handlers terminal
  setCurrent (if terminal then none else some block)
  return id

def jump (frames : List Frame) (label : Option String) (leaves : Bool) : Watched Unit := do
  match OpenRegion.findLoop label (← get).regions with
  | some (count, continueTarget, breakTarget) =>
      closeWith (← leaveThrough frames count (if leaves then breakTarget else continueTarget))
  | none =>
      match label with
      | some label => plain (throw (.unknownLabel label))
      | none => plain (throw (if leaves then .breakOutsideLoop else .continueOutsideLoop))

/-- The two ways to lower an expression, each of which leaves regions and scopes as they are. -/
structure Lowered where
  value : Watched NodeId
  test : BlockId → BlockId → Watched Unit

namespace Lowered

def balanced (l : Lowered) : Lowered where
  value := l.value.balanced
  test thenTarget elseTarget := (l.test thenTarget elseTarget).balanced

def ofValue (value : Watched NodeId) : Lowered where
  value := value.balanced
  test thenTarget elseTarget :=
    Watched.balanced do branch (← value.balanced) thenTarget elseTarget

def shortCircuit (op : BinOp) (lhs rhs : Lowered) : Lowered := balanced {
  value := do
    let left ← lhs.value
    let rhsBlock ← newBlock
    let mergeBlock ← newBlock
    if op = .and then branch left rhsBlock mergeBlock
    else branch left mergeBlock rhsBlock
    setCurrent rhsBlock
    let right ← rhs.value
    closeWith mergeBlock
    setCurrent mergeBlock
    emit (.shortCircuit op left right)
  test := fun thenTarget elseTarget => do
    let rhsBlock ← newBlock
    if op = .and then lhs.test rhsBlock elseTarget
    else lhs.test thenTarget rhsBlock
    setCurrent rhsBlock
    rhs.test thenTarget elseTarget }

def negation (operand : Lowered) : Lowered := balanced {
  value := do emit (.unary .not (← operand.value))
  test := fun thenTarget elseTarget => operand.test elseTarget thenTarget }

def ternary (condition thenValue elseValue : Lowered) : Lowered := balanced {
  value := do
    let thenBlock ← newBlock
    let elseBlock ← newBlock
    let mergeBlock ← newBlock
    condition.test thenBlock elseBlock
    setCurrent thenBlock
    let left ← thenValue.value
    closeWith mergeBlock
    setCurrent elseBlock
    let right ← elseValue.value
    closeWith mergeBlock
    setCurrent mergeBlock
    emit (.ternaryMerge left right)
  test := fun thenTarget elseTarget => do
    let thenBlock ← newBlock
    let elseBlock ← newBlock
    condition.test thenBlock elseBlock
    setCurrent thenBlock
    thenValue.test thenTarget elseTarget
    setCurrent elseBlock
    elseValue.test thenTarget elseTarget }

end Lowered

mutual

def lowerExpr (frames : List Frame) : Expr → Lowered
  | .literal value => .ofValue (emit (.literal value))
  | .var name => .ofValue do emit (.localRead (← lookup name))
  | .this => .ofValue (emit .this)
  | .field receiver name =>
      let receiver := lowerExpr frames receiver
      .ofValue do emit (.fieldRead (← receiver.value) name)
  | .call receiver method args throws =>
      let receiver := lowerReceiver frames receiver
      let args := lowerArgs frames args
      .ofValue do
        let r ← receiver
        let as ← args
        emitRaising frames (.call r method as) (runtimeException :: throws) false
  | .new className args =>
      let args := lowerArgs frames args
      .ofValue do
        let as ← args
        emitRaising frames (.new className as) [runtimeException] false
  | .binary op lhs rhs =>
      let lhs := lowerExpr frames lhs
      let rhs := lowerExpr frames rhs
      if op.isShortCircuit then .shortCircuit op lhs rhs
      else .ofValue do
        let left ← lhs.value
        let right ← rhs.value
        emit (.binary op left right)
  | .unary op operand =>
      let operand := lowerExpr frames operand
      if op = .not then .negation operand
      else .ofValue do emit (.unary op (← operand.value))
  | .ternary condition thenValue elseValue =>
      .ternary (lowerExpr frames condition) (lowerExpr frames thenValue)
        (lowerExpr frames elseValue)
  | .cast qualifier operand =>
      let operand := lowerExpr frames operand
      .ofValue do emit (.cast qualifier (← operand.value))

def lowerReceiver (frames : List Frame) : Option Expr → Watched (Option NodeId)
  | none => return none
  | some e => do
      let id ← (lowerExpr frames e).value
      return some id

def lowerArgs (frames : List Frame) : List Expr → Watched (List NodeId)
  | [] => return []
  | e :: rest => do
      let id ← (lowerExpr frames e).value
      let ids ← lowerArgs frames rest
      return id :: ids

end

def lowerAssert (frames : List Frame) (condition : Expr) : Watched Unit := do
  let holds ← newBlock
  let fails ← newBlock
  (lowerExpr frames condition).test holds fails
  setCurrent fails
  discard (emitRaising frames .assertFailure [assertionError] true)
  setCurrent holds

def lowerDecl (frames : List Frame) (name : String) (qualifier : Option String)
    (init : Option Expr) : Watched Unit := do
  let value ← lowerReceiver frames init
  let var : LocalVar := ⟨name, qualifier, .local⟩
  declare var
  discard (emit (.localDecl var))
  if let some value := value then discard (emit (.assign (.local var) value))

def lowerAssign (frames : List Frame) (target : Target) (value : Expr) : Watched Unit := do
  match target with
  | .local name =>
      let value ← (lowerExpr frames value).value
      discard (emit (.assign (.local (← lookup name)) value))
  | .field receiver name =>
      let receiver ← (lowerExpr frames receiver).value
      let value ← (lowerExpr frames value).value
      discard (emit (.assign (.field receiver name) value))

def lowerFor (frames : List Frame) (label : Option String) (init : Watched Unit)
    (condition : Option Expr) (update : Watched Unit) (body : Frame → Watched Unit) :
    Watched BlockId := do
  plain (modify fun b => { b with scopes := [] :: b.scopes })
  init
  let head ← newLoopHead
  closeWith head
  let testBlock ← newBlock
  link head testBlock
  let bodyBlock ← newBlock
  let updateBlock ← newBlock
  let exitBlock ← newBlock
  setCurrent testBlock
  match condition with
  | some condition => (lowerExpr frames condition).test bodyBlock exitBlock
  | none => closeWith bodyBlock
  within (.loop label updateBlock exitBlock) do
    setCurrent bodyBlock
    inScope (body (.loop label updateBlock exitBlock))
  closeWith updateBlock
  setCurrent updateBlock
  update
  closeWith head
  plain (modify fun b => { b with scopes := b.scopes.drop 1 })
  return exitBlock

/-- A protected region with its clauses. The frames include that of its final body, if it has one,
and as many of them are left by a path to the block after the statement. -/
def lowerProtected (frames : List Frame) (count : Nat) (targets : List (String × BlockId))
    (after : BlockId) (body : List Frame → Watched Unit)
    (clauses : List Frame → Watched Unit → Watched Unit) : Watched Unit := do
  within (.handlers targets) (inScope (body (.handlers targets :: frames)))
  closeWith (← leaveThrough frames count after)
  clauses frames (do closeWith (← leaveThrough frames count after))

mutual

def lowerStmt (frames : List Frame) : Stmt → Watched Unit
  | .localDecl name qualifier init => lowerDecl frames name qualifier init
  | .assign target value => lowerAssign frames target value
  | .expr value => discard (lowerExpr frames value).value
  | .ifElse condition thenBody elseBody => do
      let thenBlock ← newBlock
      let elseBlock ← newBlock
      let mergeBlock ← newBlock
      (lowerExpr frames condition).test thenBlock elseBlock
      setCurrent thenBlock
      inScope (lowerStmts frames thenBody)
      closeWith mergeBlock
      setCurrent elseBlock
      lowerElse frames elseBody
      closeWith mergeBlock
      setCurrent mergeBlock
  | .whileLoop label condition body => do
      let head ← newLoopHead
      closeWith head
      let testBlock ← newBlock
      link head testBlock
      let bodyBlock ← newBlock
      let exitBlock ← newBlock
      setCurrent testBlock
      (lowerExpr frames condition).test bodyBlock exitBlock
      within (.loop label head exitBlock) do
        setCurrent bodyBlock
        inScope (lowerStmts (.loop label head exitBlock :: frames) body)
      closeWith head
      setCurrent exitBlock
  | .doWhile label body condition => do
      let head ← newLoopHead
      closeWith head
      let bodyBlock ← newBlock
      link head bodyBlock
      let testBlock ← newBlock
      let exitBlock ← newBlock
      within (.loop label testBlock exitBlock) do
        setCurrent bodyBlock
        inScope (lowerStmts (.loop label testBlock exitBlock :: frames) body)
      closeWith testBlock
      setCurrent testBlock
      (lowerExpr frames condition).test head exitBlock
      setCurrent exitBlock
  | .forLoop label init condition update body => do
      let exitBlock ← lowerFor frames label (lowerStmts frames init) condition
        (lowerStmts frames update) (fun frame => lowerStmts (frame :: frames) body)
      setCurrent exitBlock
  | .breakLoop label => jump frames label true
  | .continueLoop label => jump frames label false
  | .returnValue value => do
      let value ← lowerReceiver frames value
      discard (emit (.returnValue value))
      closeWith (← leaveThrough frames frames.length Build.exitId)
  | .throw exception value => do
      let value ← lowerReceiver frames value
      discard (emitRaising frames (.throw exception value) [exception] true)
  | .tryCatch body handlers finalBody => do
      plain (checkHandlers [] (handlers.map Handler.exception))
      let after ← newBlock
      let targets ← plain (handlers.mapM fun h => do
        let block ← Build.newBlock
        return (h.exception, block))
      match lowerFinal frames finalBody with
      | none =>
          lowerProtected frames 0 targets after (fun inner => lowerStmts inner body)
            fun inner leave => lowerHandlers inner leave handlers (targets.map Prod.snd)
      | some copy =>
          let id := (← get).building.nextFinal
          plain (modify fun b => { b with nextFinal := id + 1 })
          within (.finalBody id)
            (lowerProtected (.finalBody id copy :: frames) 1 targets after
              (fun inner => lowerStmts inner body)
              fun inner leave => lowerHandlers inner leave handlers (targets.map Prod.snd))
      setCurrent after
  | .assert condition => lowerAssert frames condition

def lowerStmts (frames : List Frame) : List Stmt → Watched Unit
  | [] => return ()
  | s :: rest => do
      balanced (lowerStmt frames s)
      lowerStmts frames rest

def lowerElse (frames : List Frame) : Option (List Stmt) → Watched Unit
  | none => return ()
  | some body => inScope (lowerStmts frames body)

def lowerFinal (frames : List Frame) : Option (List Stmt) → Option (Watched Unit)
  | none => none
  | some body => some (inScope (lowerStmts frames body))

def lowerHandlers (frames : List Frame) (leave : Watched Unit) :
    List Handler → List BlockId → Watched Unit
  | .clause _ binding body :: rest, block :: blocks => do
      setCurrent block
      inScope do
        if let some name := binding then
          let var : LocalVar := ⟨name, none, .local⟩
          declare var
          discard (emit (.localDecl var))
        lowerStmts frames body
      leave
      lowerHandlers frames leave rest blocks
  | _, _ => return ()

end

end Watched

/-- The graph of a unit, or its first fault, where the watched construction does not stop. -/
def ProgramUnit.watched (u : ProgramUnit) : Option (Except GraphError FlowGraph) :=
  let build : Watched Unit := do
    let first ← Watched.newBlock
    Watched.link Build.entryId first
    Watched.setCurrent first
    Watched.inScope (Watched.lowerStmts [] u.body)
    Watched.closeWith Build.exitId
  (build.outcome ⟨Build.start u.params, []⟩).map fun result =>
    result.bind fun r => Build.finish u.name r.2.building

end FlowTyping
