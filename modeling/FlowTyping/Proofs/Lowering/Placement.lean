import FlowTyping.Lowering.Lower

/-!
Layouts: the drafts and nodes of a finished construction, as places between operations.
The relations say what stands at a place, so they do not depend on the order in which a
construction filled the blocks.
-/

namespace FlowTyping

/-- The scopes open at a point of a unit, innermost first. -/
abbrev Scopes := List (List LocalVar)

/-- A place between two operations: before an operation of a block (or at its end), or
past a block whose raising node has completed. -/
inductive Point where
  | inside (block : BlockId) (index : Nat)
  | past (block : BlockId)
  deriving DecidableEq, Repr

/-- The first place of a block. -/
abbrev Point.startOf (block : BlockId) : Point := .inside block 0

structure Layout where
  drafts : Array Draft
  nodes : Array Node

namespace Layout

variable (D : Layout)

/-- Control moves on without an operation or a choice. -/
inductive Silent : Point → Point → Prop
  | goto {block : BlockId} {nodes : List NodeId} {target : BlockId}
      (h : D.drafts[block]? = some ⟨nodes, .goto target⟩) :
      Silent (.inside block nodes.length) (.startOf target)
  | special {block : BlockId} {kind : SpecialKind} {target : BlockId}
      (h : D.drafts[block]? = some ⟨[], .special kind (some target)⟩) :
      Silent (.startOf block) (.startOf target)
  | resume {block : BlockId} {nodes : List NodeId} {target : BlockId}
      {handlers : List (String × BlockId)}
      (h : D.drafts[block]? = some ⟨nodes, .raise (some target) handlers false⟩) :
      Silent (.past block) (.startOf target)

/-- Control at one place comes to another one, at once or by one silent move. Where
control never is, this says nothing. -/
inductive Flows : Option Point → Point → Prop
  | dead (q : Point) : Flows none q
  | stay (p : Point) : Flows (some p) p
  | move {p q : Point} (h : D.Silent p q) : Flows (some p) q

/-- A node of a kind stands at a place. -/
def Emits (p : Option Point) (kind : NodeKind) (id : NodeId) (q : Option Point) : Prop :=
  ∃ block index d n, D.Flows p (.inside block index) ∧ D.drafts[block]? = some d ∧
    d.nodes[index]? = some id ∧ D.nodes[id]? = some n ∧ n.kind = kind ∧
    q = some (.inside block (index + 1))

/-- A raising node of a kind stands alone in the block at a place. -/
def Raises (p : Option Point) (kind : NodeKind) (id : NodeId)
    (handlers : List (String × BlockId)) (terminal : Bool) (q : Option Point) : Prop :=
  ∃ block successor n, D.Flows p (.startOf block) ∧
    D.drafts[block]? = some ⟨[id], .raise successor handlers terminal⟩ ∧
    (terminal = true → successor = none) ∧ D.nodes[id]? = some n ∧ n.kind = kind ∧
    q = if terminal then none else some (.past block)

/-- A test of a node stands at a place. -/
def Branches (p : Option Point) (condition : NodeId) (thenTarget elseTarget : BlockId) :
    Prop :=
  ∃ block, D.Flows p (.startOf block) ∧
    D.drafts[block]? = some ⟨[], .branch condition thenTarget elseTarget⟩

end Layout

/-- Where the code of a statement stands: the scopes before it, the place before it
and the place after it. -/
abbrev Placement := Layout → Scopes → Option Point → Option Point → Prop

/-- A final body with the scopes around its statement. The placement says where a copy
of it stands that was made in some scopes. -/
structure FinalCopy where
  scopes : Scopes
  body : List Stmt
  place : Placement

/-- What surrounds a statement, with the scopes in which it was opened. -/
inductive Region where
  | loop (scopes : Scopes) (label : Option String) (continueTarget breakTarget : BlockId)
  | handlers (scopes : Scopes) (targets : List (String × BlockId))
  | finalBody (final : FinalCopy)

namespace Region

def scopes : Region → Scopes
  | loop scopes _ _ _ => scopes
  | handlers scopes _ => scopes
  | finalBody final => final.scopes

/-- The blocks to which a region sends control. -/
def targets : Region → List BlockId
  | loop _ _ continueTarget breakTarget => [continueTarget, breakTarget]
  | handlers _ targets => targets.map Prod.snd
  | finalBody _ => []

/-- The final bodies on the way out of all regions. -/
def crossed : List Region → List FinalCopy
  | [] => []
  | finalBody final :: outer => final :: crossed outer
  | _ :: outer => crossed outer

/-- The final bodies on the way to the clause that catches a category, and the block
of the clause, or the exceptional exit. -/
def caught (category : String) : List Region → List FinalCopy × BlockId
  | [] => ([], Build.exceptionalExitId)
  | loop _ _ _ _ :: outer => caught category outer
  | handlers _ targets :: outer =>
      match targets.find? fun t => t.1 = category || t.1 = catchAll with
      | some t => ([], t.2)
      | none => caught category outer
  | finalBody final :: outer => (final :: (caught category outer).1, (caught category outer).2)

/-- The final bodies on the way to the loop that a jump names, and the block that it
leads to. -/
def jumped (label : Option String) (leaves : Bool) :
    List Region → Option (List FinalCopy × BlockId)
  | [] => none
  | loop _ name continueTarget breakTarget :: outer =>
      if label.isNone || name = label then
        some ([], if leaves then breakTarget else continueTarget)
      else jumped label leaves outer
  | handlers _ _ :: outer => jumped label leaves outer
  | finalBody final :: outer =>
      (jumped label leaves outer).map fun found => (final :: found.1, found.2)

end Region

namespace Layout

variable (D : Layout)

/-- The copies of some final bodies stand one after the other, all made in the same
scopes, and then control comes to a block. -/
def LeadsThrough (scopes : Scopes) (target : BlockId) :
    List FinalCopy → Option Point → Prop
  | [], p => D.Flows p (.startOf target)
  | final :: rest, p => ∃ q, final.place D scopes p q ∧ LeadsThrough scopes target rest q

/-- Control that goes to `first` comes through a copy of each final body to a target.
The copies were made in scopes inside those of every final body. -/
def Leaves (crossed : List FinalCopy) (target first : BlockId) : Prop :=
  (crossed = [] ∧ first = target) ∨
    ∃ scopes, (∀ final ∈ crossed, final.scopes <:+ scopes) ∧
      D.LeadsThrough scopes target crossed (some (.startOf first))

/-- Control that goes from a place leaves through final bodies to a target. -/
def Departs (p : Option Point) (crossed : List FinalCopy) (target : BlockId) : Prop :=
  ∃ first, D.Leaves crossed target first ∧ D.Flows p (.startOf first)

/-- Each of some categories has one route, which leads to the clause that catches it. -/
def Routes (regions : List Region) (categories : List String)
    (handlers : List (String × BlockId)) : Prop :=
  handlers.map Prod.fst = Digraph.distinct categories ∧
    ∀ h ∈ handlers, D.Leaves (Region.caught h.1 regions).1 (Region.caught h.1 regions).2 h.2

end Layout

/-!
Where the code of expressions and statements stands in a layout. The definitions follow
the syntax; a region holds the placement of its final body, so that a way out of it
can name the copies that it comes through.
-/

/-- Where the code of an expression stands, as a value held by a node and as a test of
two targets. -/
structure Placing where
  value : Layout → Scopes → Option Point → NodeId → Option Point → Prop
  test : Layout → Scopes → Option Point → BlockId → BlockId → Prop

namespace Placing

def ofValue (value : Layout → Scopes → Option Point → NodeId → Option Point → Prop) :
    Placing where
  value := value
  test D σ p thenTarget elseTarget :=
    ∃ id q, value D σ p id q ∧ D.Branches q id thenTarget elseTarget

def shortCircuit (op : BinOp) (lhs rhs : Placing) : Placing where
  value D σ p id q :=
    ∃ left p₁ rhsBlock mergeBlock right p₂, lhs.value D σ p left p₁ ∧
      (if op = .and then D.Branches p₁ left rhsBlock mergeBlock
        else D.Branches p₁ left mergeBlock rhsBlock) ∧
      rhs.value D σ (some (.startOf rhsBlock)) right p₂ ∧
      D.Flows p₂ (.startOf mergeBlock) ∧
      D.Emits (some (.startOf mergeBlock)) (.shortCircuit op left right) id q
  test D σ p thenTarget elseTarget :=
    ∃ rhsBlock,
      (if op = .and then lhs.test D σ p rhsBlock elseTarget
        else lhs.test D σ p thenTarget rhsBlock) ∧
      rhs.test D σ (some (.startOf rhsBlock)) thenTarget elseTarget

def negation (operand : Placing) : Placing where
  value D σ p id q :=
    ∃ inner p₁, operand.value D σ p inner p₁ ∧ D.Emits p₁ (.unary .not inner) id q
  test D σ p thenTarget elseTarget := operand.test D σ p elseTarget thenTarget

def ternary (condition thenValue elseValue : Placing) : Placing where
  value D σ p id q :=
    ∃ thenBlock elseBlock mergeBlock left p₁ right p₂,
      condition.test D σ p thenBlock elseBlock ∧
      thenValue.value D σ (some (.startOf thenBlock)) left p₁ ∧
      D.Flows p₁ (.startOf mergeBlock) ∧
      elseValue.value D σ (some (.startOf elseBlock)) right p₂ ∧
      D.Flows p₂ (.startOf mergeBlock) ∧
      D.Emits (some (.startOf mergeBlock)) (.ternaryMerge left right) id q
  test D σ p thenTarget elseTarget :=
    ∃ thenBlock elseBlock, condition.test D σ p thenBlock elseBlock ∧
      thenValue.test D σ (some (.startOf thenBlock)) thenTarget elseTarget ∧
      elseValue.test D σ (some (.startOf elseBlock)) thenTarget elseTarget

end Placing

namespace Scopes

/-- The variable that a name stands for. A name that is not declared is a local
without a qualifier. -/
def resolve (σ : Scopes) (name : String) : LocalVar :=
  (σ.findSome? fun scope => scope.find? fun var => var.name = name).getD ⟨name, none, .local⟩

theorem resolve_name (σ : Scopes) (name : String) : (σ.resolve name).name = name := by
  unfold resolve
  cases h : σ.findSome? fun scope => scope.find? fun var => var.name = name with
  | none => rfl
  | some var =>
      obtain ⟨scope, -, hvar⟩ := List.exists_of_findSome?_eq_some h
      simpa using List.find?_some hvar

/-- The scopes after a declaration. -/
def declare (σ : Scopes) (var : LocalVar) : Scopes :=
  match σ with
  | scope :: outer => (var :: scope) :: outer
  | [] => []

end Scopes

mutual

def placeExpr (regions : List Region) : Expr → Placing
  | .literal value => .ofValue fun D _ p id q => D.Emits p (.literal value) id q
  | .var name => .ofValue fun D σ p id q => D.Emits p (.localRead (σ.resolve name)) id q
  | .this => .ofValue fun D _ p id q => D.Emits p .this id q
  | .field receiver name =>
      .ofValue fun D σ p id q => ∃ r p₁,
        (placeExpr regions receiver).value D σ p r p₁ ∧ D.Emits p₁ (.fieldRead r name) id q
  | .call receiver method args throws =>
      .ofValue fun D σ p id q => ∃ r p₁ as p₂ handlers,
        placeReceiver regions receiver D σ p r p₁ ∧ placeArgs regions args D σ p₁ as p₂ ∧
        D.Routes regions (runtimeException :: throws) handlers ∧
        D.Raises p₂ (.call r method as) id handlers false q
  | .new className args =>
      .ofValue fun D σ p id q => ∃ as p₁ handlers,
        placeArgs regions args D σ p as p₁ ∧
        D.Routes regions [runtimeException] handlers ∧
        D.Raises p₁ (.new className as) id handlers false q
  | .binary op lhs rhs =>
      if op.isShortCircuit then
        .shortCircuit op (placeExpr regions lhs) (placeExpr regions rhs)
      else .ofValue fun D σ p id q => ∃ left p₁ right p₂,
        (placeExpr regions lhs).value D σ p left p₁ ∧
        (placeExpr regions rhs).value D σ p₁ right p₂ ∧
        D.Emits p₂ (.binary op left right) id q
  | .unary op operand =>
      if op = .not then .negation (placeExpr regions operand)
      else .ofValue fun D σ p id q => ∃ inner p₁,
        (placeExpr regions operand).value D σ p inner p₁ ∧ D.Emits p₁ (.unary op inner) id q
  | .ternary condition thenValue elseValue =>
      .ternary (placeExpr regions condition) (placeExpr regions thenValue)
        (placeExpr regions elseValue)
  | .cast qualifier operand =>
      .ofValue fun D σ p id q => ∃ inner p₁,
        (placeExpr regions operand).value D σ p inner p₁ ∧
        D.Emits p₁ (.cast qualifier inner) id q

def placeReceiver (regions : List Region) :
    Option Expr → Layout → Scopes → Option Point → Option NodeId → Option Point → Prop
  | none, _, _, p, id, q => id = none ∧ q = p
  | some e, D, σ, p, id, q => ∃ r, id = some r ∧ (placeExpr regions e).value D σ p r q

def placeArgs (regions : List Region) :
    List Expr → Layout → Scopes → Option Point → List NodeId → Option Point → Prop
  | [], _, _, p, ids, q => ids = [] ∧ q = p
  | e :: rest, D, σ, p, ids, q => ∃ id ids' p₁, ids = id :: ids' ∧
      (placeExpr regions e).value D σ p id p₁ ∧ placeArgs regions rest D σ p₁ ids' q

end

/-- The scopes after a statement. Only a declaration leaves anything behind. -/
def Stmt.scopesAfter : Stmt → Scopes → Scopes
  | .localDecl name qualifier _, σ => σ.declare ⟨name, qualifier, .local⟩
  | _, σ => σ

def Stmt.scopesAfterAll (stmts : List Stmt) (σ : Scopes) : Scopes :=
  stmts.foldl (fun σ s => s.scopesAfter σ) σ

/-- The scopes in which the body of a clause stands. -/
def Handler.bodyScopes (binding : Option String) (σ : Scopes) : Scopes :=
  match binding with
  | some name => Scopes.declare ([] :: σ) ⟨name, none, .local⟩
  | none => [] :: σ

def placeDecl (regions : List Region) (var : LocalVar) (init : Option Expr) : Placement :=
  fun D σ p q => ∃ value p₁ id p₂, placeReceiver regions init D σ p value p₁ ∧
    D.Emits p₁ (.localDecl var) id p₂ ∧
    match value with
    | none => q = p₂
    | some value => ∃ id', D.Emits p₂ (.assign (.local var) value) id' q

def placeAssign (regions : List Region) (target : Target) (value : Expr) : Placement :=
  fun D σ p q =>
    match target with
    | .local name => ∃ source p₁ id, (placeExpr regions value).value D σ p source p₁ ∧
        D.Emits p₁ (.assign (.local (σ.resolve name)) source) id q
    | .field receiver name => ∃ r p₁ source p₂ id,
        (placeExpr regions receiver).value D σ p r p₁ ∧
        (placeExpr regions value).value D σ p₁ source p₂ ∧
        D.Emits p₂ (.assign (.field r name) source) id q

def placeAssert (regions : List Region) (condition : Expr) : Placement :=
  fun D σ p q => ∃ holds fails handlers id, (placeExpr regions condition).test D σ p holds fails ∧
    D.Routes regions [assertionError] handlers ∧
    D.Raises (some (.startOf fails)) .assertFailure id handlers true none ∧
    q = some (.startOf holds)

/-- A jump out of regions, after which nothing follows. -/
def placeJump (found : Option (List FinalCopy × BlockId)) : Placement :=
  fun D _ p q => ∃ crossed target, found = some (crossed, target) ∧
    D.Departs p crossed target ∧ q = none

/-- What is asked of each copy of a final body: given the scopes around its statement and
the body, what holds of the copy that was made in some scopes. -/
abbrev CopyLaw := Scopes → List Stmt → Placement

mutual

def placeStmt (W : CopyLaw) (regions : List Region) : Stmt → Placement
  | .localDecl name qualifier init => placeDecl regions ⟨name, qualifier, .local⟩ init
  | .assign target value => placeAssign regions target value
  | .expr value => fun D σ p q => ∃ id, (placeExpr regions value).value D σ p id q
  | .ifElse condition thenBody elseBody => fun D σ p q =>
      ∃ thenBlock elseBlock mergeBlock p₁ p₂,
        (placeExpr regions condition).test D σ p thenBlock elseBlock ∧
        placeStmts W regions thenBody D ([] :: σ) (some (.startOf thenBlock)) p₁ ∧
        D.Flows p₁ (.startOf mergeBlock) ∧
        placeElse W regions elseBody D σ (some (.startOf elseBlock)) p₂ ∧
        D.Flows p₂ (.startOf mergeBlock) ∧ q = some (.startOf mergeBlock)
  | .whileLoop label condition body => fun D σ p q =>
      ∃ head testBlock bodyBlock exitBlock p₁, D.Flows p (.startOf head) ∧
        D.Silent (.startOf head) (.startOf testBlock) ∧
        (placeExpr regions condition).test D σ (some (.startOf testBlock)) bodyBlock
          exitBlock ∧
        placeStmts W (.loop σ label head exitBlock :: regions) body D ([] :: σ)
          (some (.startOf bodyBlock)) p₁ ∧
        D.Flows p₁ (.startOf head) ∧ q = some (.startOf exitBlock)
  | .doWhile label body condition => fun D σ p q =>
      ∃ head bodyBlock testBlock exitBlock p₁, D.Flows p (.startOf head) ∧
        D.Silent (.startOf head) (.startOf bodyBlock) ∧
        placeStmts W (.loop σ label testBlock exitBlock :: regions) body D ([] :: σ)
          (some (.startOf bodyBlock)) p₁ ∧
        D.Flows p₁ (.startOf testBlock) ∧
        (placeExpr regions condition).test D σ (some (.startOf testBlock)) head exitBlock ∧
        q = some (.startOf exitBlock)
  | .forLoop label init condition update body => fun D σ p q =>
      ∃ head testBlock bodyBlock updateBlock exitBlock p₁ p₂ p₃,
        placeStmts W regions init D ([] :: σ) p p₁ ∧ D.Flows p₁ (.startOf head) ∧
        D.Silent (.startOf head) (.startOf testBlock) ∧
        (match condition with
          | some condition => (placeExpr regions condition).test D
              (Stmt.scopesAfterAll init ([] :: σ)) (some (.startOf testBlock)) bodyBlock
              exitBlock
          | none => D.Flows (some (.startOf testBlock)) (.startOf bodyBlock)) ∧
        placeStmts W
          (.loop (Stmt.scopesAfterAll init ([] :: σ)) label updateBlock exitBlock :: regions)
          body D ([] :: Stmt.scopesAfterAll init ([] :: σ)) (some (.startOf bodyBlock)) p₂ ∧
        D.Flows p₂ (.startOf updateBlock) ∧
        placeStmts W regions update D (Stmt.scopesAfterAll init ([] :: σ))
          (some (.startOf updateBlock)) p₃ ∧
        D.Flows p₃ (.startOf head) ∧ q = some (.startOf exitBlock)
  | .breakLoop label => placeJump (Region.jumped label true regions)
  | .continueLoop label => placeJump (Region.jumped label false regions)
  | .returnValue value => fun D σ p q => ∃ v p₁ id p₂,
      placeReceiver regions value D σ p v p₁ ∧ D.Emits p₁ (.returnValue v) id p₂ ∧
      D.Departs p₂ (Region.crossed regions) Build.exitId ∧ q = none
  | .throw exception value => fun D σ p q => ∃ v p₁ handlers id,
      placeReceiver regions value D σ p v p₁ ∧ D.Routes regions [exception] handlers ∧
      D.Raises p₁ (.throw exception v) id handlers true q
  | .tryCatch body handlers finalBody => fun D σ p q =>
      ∃ after targets p₁, targets.map Prod.fst = handlers.map Handler.exception ∧
        placeStmts W (.handlers σ targets ::
            (placeFinal W regions σ finalBody).map Region.finalBody ++ regions)
          body D ([] :: σ) p p₁ ∧
        D.Departs p₁ (placeFinal W regions σ finalBody) after ∧
        placeHandlers W ((placeFinal W regions σ finalBody).map Region.finalBody ++ regions)
          (fun D p => D.Departs p (placeFinal W regions σ finalBody) after) handlers D σ
          (targets.map Prod.snd) ∧
        q = some (.startOf after)
  | .assert condition => placeAssert regions condition

def placeStmts (W : CopyLaw) (regions : List Region) : List Stmt → Placement
  | [], _, _, p, q => q = p
  | s :: rest, D, σ, p, q => ∃ p₁, placeStmt W regions s D σ p p₁ ∧
      placeStmts W regions rest D (s.scopesAfter σ) p₁ q

def placeElse (W : CopyLaw) (regions : List Region) : Option (List Stmt) → Placement
  | none, _, _, p, q => q = p
  | some body, D, σ, p, q => placeStmts W regions body D ([] :: σ) p q

/-- The copies of an optional final body. -/
def placeFinal (W : CopyLaw) (regions : List Region) (σ : Scopes) :
    Option (List Stmt) → List FinalCopy
  | none => []
  | some body => [⟨σ, body, fun D σ' p q =>
      placeStmts W regions body D ([] :: σ') p q ∧ (σ <:+ σ' → W σ body D σ' p q)⟩]

/-- The clauses of a protected region stand in their blocks, each followed by the way
out. -/
def placeHandlers (W : CopyLaw) (regions : List Region)
    (leave : Layout → Option Point → Prop) :
    List Handler → Layout → Scopes → List BlockId → Prop
  | .clause _ binding body :: rest, D, σ, block :: blocks =>
      (∃ p₁ p₂, (match binding with
          | some name => ∃ id, D.Emits (some (.startOf block))
              (.localDecl ⟨name, none, .local⟩) id p₁
          | none => p₁ = some (.startOf block)) ∧
        placeStmts W regions body D (Handler.bodyScopes binding σ) p₁ p₂ ∧ leave D p₂) ∧
      placeHandlers W regions leave rest D σ blocks
  | _, _, _, _ => True

end

/-- Where a copy of a final body stands, and what is asked of it. -/
def placeCopy (W : CopyLaw) (regions : List Region) (σ : Scopes) (body : List Stmt) :
    Placement := fun D σ' p q =>
  placeStmts W regions body D ([] :: σ') p q ∧ (σ <:+ σ' → W σ body D σ' p q)

theorem placeFinal_some (W : CopyLaw) (regions : List Region) (σ : Scopes) (body : List Stmt) :
    placeFinal W regions σ (some body) = [⟨σ, body, placeCopy W regions σ body⟩] := by
  rw [placeFinal]
  rfl

/-- A law that every copy of a final body obeys, wherever it is made. -/
def CopyLaw.Holds (W : CopyLaw) : Prop :=
  ∀ {regions : List Region} {σ : Scopes} {body : List Stmt} {D : Layout} {σ' : Scopes}
    {p q : Option Point}, placeStmts W regions body D ([] :: σ') p q → σ <:+ σ' →
    W σ body D σ' p q

end FlowTyping
