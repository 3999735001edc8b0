import FlowTyping.Lowering.Draft

/-!
Graph construction as operations on drafts: opening blocks, emitting nodes, routing
tests, and leaving protected regions through copies of their final bodies.
-/

namespace FlowTyping

/-- The category raised by every call and object creation. -/
def runtimeException : String := "RuntimeException"

/-- The category raised by a failed assertion. -/
def assertionError : String := "AssertionError"

/-- The category of a clause that catches everything. -/
def catchAll : String := "*"

/-- The state of a construction. Scopes are listed innermost first, the variables of
a scope last declared first. -/
structure Building where
  drafts : Array Draft
  nodes : Array Node
  current : Option BlockId
  scopes : List (List LocalVar)
  nextFinal : Nat
  finalPaths : List ((List Nat × BlockId) × BlockId)

abbrev Build := StateT Building (Except GraphError)

/-- What surrounds a statement. A final body comes with the construction of a copy of
it, which runs outside the region that the body protects. -/
inductive Frame where
  | loop (label : Option String) (continueTarget breakTarget : BlockId)
  | handlers (targets : List (String × BlockId))
  | finalBody (id : Nat) (copy : Build Unit)

/-- A final body that a path leaves through. -/
structure Crossing where
  id : Nat
  copy : Build Unit

namespace Build

def entryId : BlockId := 0

def exitId : BlockId := 1

def exceptionalExitId : BlockId := 2

/-- The designated blocks and the scope of the parameters. -/
def start (params : List Parameter) : Building :=
  let special := fun kind => (⟨[], .special kind none⟩ : Draft)
  { drafts := #[special .entry, special .exit, special .exceptionalExit]
    nodes := #[]
    current := none
    scopes := [(params.map fun p => ⟨p.name, p.qualifier, .parameter⟩).reverse]
    nextFinal := 0
    finalPaths := [] }

def newDraft (exits : Exits) : Build BlockId := do
  let b ← get
  set { b with drafts := b.drafts.push ⟨[], exits⟩ }
  return b.drafts.size

def newBlock : Build BlockId := newDraft .openEnd

def newLoopHead : Build BlockId := newDraft (.special .loopHead none)

def setCurrent (block : Option BlockId) : Build Unit :=
  modify fun b => { b with current := block }

def modifyDraft (block : BlockId) (f : Draft → Draft) : Build Unit :=
  modify fun b => { b with drafts := b.drafts.modify block f }

/-- Connects the free exit of one block to another. -/
def link (source target : BlockId) : Build Unit :=
  modifyDraft source fun d => { d with exits := d.exits.link target }

/-- Ends the current path with a jump. -/
def closeWith (target : BlockId) : Build Unit := do
  if let some block := (← get).current then link block target
  setCurrent none

def draft (block : BlockId) : Build Draft := return (← get).drafts.getD block default

/-- A fresh block after the current one, if there is one. -/
def nextBlock : Build BlockId := do
  let previous := (← get).current
  let block ← newBlock
  if let some previous := previous then link previous block
  return block

/-- The block that takes the next node. What follows a jump starts a block that
nothing leads to. -/
def openBlock : Build BlockId := do
  if let some block := (← get).current then
    if (← draft block).exits = .openEnd then return block
  let block ← nextBlock
  setCurrent block
  return block

def pushNode (block : BlockId) (kind : NodeKind) : Build NodeId := do
  let id := (← get).nodes.size
  modify fun b => { b with nodes := b.nodes.push ⟨id, block, kind⟩ }
  modifyDraft block fun d => { d with nodes := d.nodes ++ [id] }
  return id

def emit (kind : NodeKind) : Build NodeId := do
  pushNode (← openBlock) kind

/-- Routes on the outcome of the node emitted last. -/
def branch (condition : NodeId) (thenTarget elseTarget : BlockId) : Build Unit := do
  let source := ((← get).nodes[condition]?.map Node.block).getD 0
  let test ← newDraft (.branch condition thenTarget elseTarget)
  link source test
  setCurrent none

/-- The entry of a path to `target` through a copy of each final body crossed,
innermost first. A path that was asked for before is shared. -/
def leaveThrough (crossed : List Crossing) (target : BlockId) : Build BlockId := do
  if crossed.isEmpty then return target
  let key := (crossed.map Crossing.id, target)
  match (← get).finalPaths.find? fun path => path.1 = key with
  | some path => return path.2
  | none =>
      let saved := (← get).current
      let first ← newBlock
      setCurrent first
      crossed.forM Crossing.copy
      closeWith target
      setCurrent saved
      modify fun b => { b with finalPaths := (key, first) :: b.finalPaths }
      return first

end Build

namespace Frame

/-- The final bodies among some frames. -/
def crossings (frames : List Frame) : List Crossing :=
  frames.filterMap fun
    | finalBody id copy => some ⟨id, copy⟩
    | _ => none

/-- The nearest clause for a category, with the frames inside its region. -/
def findHandler (category : String) : List Frame → Option (List Frame × BlockId)
  | [] => none
  | frame :: outer =>
      let further := (findHandler category outer).map fun found => (frame :: found.1, found.2)
      match frame with
      | handlers targets =>
          match targets.find? fun t => t.1 = category || t.1 = catchAll with
          | some t => some ([], t.2)
          | none => further
      | _ => further

/-- The nearest loop of a label, or the nearest loop for none: the frames inside it
and its targets. -/
def findLoop (label : Option String) : List Frame → Option (List Frame × BlockId × BlockId)
  | [] => none
  | frame :: outer =>
      let further := (findLoop label outer).map fun found => (frame :: found.1, found.2)
      match frame with
      | loop name continueTarget breakTarget =>
          if label.isNone || name = label then some ([], continueTarget, breakTarget)
          else further
      | _ => further

end Frame

namespace Build

/-- Where control goes when a category is raised: the nearest clause that catches it,
or the exceptional exit. -/
def exceptionTarget (frames : List Frame) (category : String) : Build BlockId :=
  match Frame.findHandler category frames with
  | some (inner, target) => leaveThrough (Frame.crossings inner) target
  | none => leaveThrough (Frame.crossings frames) exceptionalExitId

/-- The targets of raised categories, each category once. -/
def exceptionTargets (frames : List Frame) :
    List String → List (String × BlockId) → Build (List (String × BlockId))
  | [], routed => return routed
  | category :: rest, routed => do
      if category.isEmpty then throw .emptyExceptionCategory
      if routed.any fun r => r.1 = category then exceptionTargets frames rest routed
      else
        let target ← exceptionTarget frames category
        exceptionTargets frames rest (routed ++ [(category, target)])

/-- Places a node that may raise in a block of its own. A terminal node never
completes normally. -/
def emitRaising (frames : List Frame) (kind : NodeKind) (categories : List String)
    (terminal : Bool) : Build NodeId := do
  let handlers ← exceptionTargets frames categories []
  let reusable ← match (← get).current with
    | none => pure none
    | some block => do
        let d ← draft block
        pure (if d.exits = .openEnd && d.nodes.isEmpty then some block else none)
  let block ← match reusable with
    | some block => pure block
    | none => nextBlock
  let id ← pushNode block kind
  modifyDraft block fun d => { d with exits := .raise none handlers terminal }
  setCurrent (if terminal then none else some block)
  return id

def declare (var : LocalVar) : Build Unit :=
  modify fun b =>
    match b.scopes with
    | scope :: outer => { b with scopes := (var :: scope) :: outer }
    | [] => b

/-- The variable that a name stands for here. A name that is not declared is a local
without a qualifier. -/
def lookup (name : String) : Build LocalVar := do
  let scopes := (← get).scopes
  return (scopes.findSome? fun scope => scope.find? fun var => var.name = name).getD
    ⟨name, none, .local⟩

/-- Runs a construction in a scope of its own. -/
def inScope (body : Build Unit) : Build Unit := do
  modify fun b => { b with scopes := [] :: b.scopes }
  body
  modify fun b => { b with scopes := b.scopes.drop 1 }

/-- Jumps out of or to the next round of a loop. -/
def jump (frames : List Frame) (label : Option String) (leaves : Bool) : Build Unit := do
  match Frame.findLoop label frames with
  | some (inner, continueTarget, breakTarget) =>
      closeWith (← leaveThrough (Frame.crossings inner)
        (if leaves then breakTarget else continueTarget))
  | none =>
      match label with
      | some label => throw (.unknownLabel label)
      | none => throw (if leaves then .breakOutsideLoop else .continueOutsideLoop)

/-- Closes what is open, removes empty blocks, and checks the parts. -/
def finish (name : String) (b : Building) : Except GraphError FlowGraph :=
  let drafts := b.drafts.map fun d => { d with exits := d.exits.finish exitId }
  let ids := compactIds drafts
  let rename := fun block => (ids.getD block (false, 0)).2
  let blocks := drafts.toList.zipIdx.filterMap fun (d, index) =>
    if (ids.getD index (false, 0)).1 then
      some (⟨rename index, d.nodes, d.exits.toKind rename exitId⟩ : Block)
    else none
  GraphParts.toGraph {
    name
    blocks := blocks.toArray
    nodes := b.nodes.map fun n => { n with block := rename n.block }
    entry := rename entryId
    exit := rename exitId
    exceptionalExit := rename exceptionalExitId }

end Build

end FlowTyping
