import FlowTyping.Lowering.Lower

/-!
The code of expressions, wherever it is listed: in the drafts of a construction or in the
blocks of a graph. It follows the syntax and names the node that is evaluated first.
-/

namespace FlowTyping

open Build

/-- What is known of the nodes and blocks of some code: the kinds of nodes, the first nodes
of blocks, the blocks that test a node, and the categories that raising nodes may raise. -/
structure Listing where
  node : NodeId → NodeKind → Prop
  starts : BlockId → NodeId → Prop
  tests : BlockId → NodeId → BlockId → BlockId → Prop
  raises : NodeId → List String → Prop

namespace Listing

/-- A test of the left operand of a short-circuit operation, which leads to the block of the
right operand or past it. -/
def decides (L : Listing) (op : BinOp) (block : BlockId) (lhs : NodeId) (rest past : BlockId) :
    Prop :=
  if op = .and then L.tests block lhs rest past else L.tests block lhs past rest

/-- What one listing knows the other one knows as well, under other ids of the blocks. -/
structure Embeds (ρ : BlockId → BlockId) (L L' : Listing) : Prop where
  node : ∀ {id : NodeId} {kind : NodeKind}, L.node id kind → L'.node id kind
  starts : ∀ {block : BlockId} {first : NodeId}, L.starts block first → L'.starts (ρ block) first
  tests : ∀ {block t e : BlockId} {id : NodeId},
    L.tests block id t e → L'.tests (ρ block) id (ρ t) (ρ e)
  raises : ∀ {id : NodeId} {categories : List String},
    L.raises id categories → L'.raises id categories

theorem Embeds.trans {ρ ρ' : BlockId → BlockId} {L L' L'' : Listing} (h : L.Embeds ρ L')
    (h' : L'.Embeds ρ' L'') : L.Embeds (ρ' ∘ ρ) L'' where
  node hn := h'.node (h.node hn)
  starts hs := h'.starts (h.starts hs)
  tests ht := h'.tests (h.tests ht)
  raises hr := h'.raises (h.raises hr)

theorem Embeds.decides {ρ : BlockId → BlockId} {L L' : Listing} (h : L.Embeds ρ L') {op : BinOp}
    {block rest past : BlockId} {lhs : NodeId} (hd : L.decides op block lhs rest past) :
    L'.decides op (ρ block) lhs (ρ rest) (ρ past) := by
  unfold Listing.decides at *
  split
  · rw [if_pos ‹_›] at hd
    exact h.tests hd
  · rw [if_neg ‹_›] at hd
    exact h.tests hd

end Listing

/-- The code of an expression: as a value, from its first node to the node that holds the
value, and as a test, from its first node to two targets. -/
structure Code where
  value : Listing → NodeId → NodeId → Prop
  test : Listing → NodeId → BlockId → BlockId → Prop

/-- The code of some operands, and the first node of it if there is any. -/
abbrev OperandCode (α : Type) := Listing → Option NodeId → α → Prop

namespace OperandCode

/-- The operands are evaluated one after the other. -/
def both {α β : Type} (code : OperandCode α) (code' : OperandCode β) : OperandCode (α × β) :=
  fun L first p => ∃ f f', first = f.or f' ∧ code L f p.1 ∧ code' L f' p.2

/-- A node reads the operands evaluated before it. -/
def read {α : Type} (code : OperandCode α) (reader : Listing → NodeId → α → Prop) :
    Listing → NodeId → NodeId → Prop :=
  fun L first id => ∃ f a, code L f a ∧ first = f.getD id ∧ reader L id a

end OperandCode

namespace Code

def ofValue (value : Listing → NodeId → NodeId → Prop) : Code where
  value := value
  test L first t e := ∃ id block, value L first id ∧ L.tests block id t e

/-- A value as the only operand. -/
def operand (code : Code) : OperandCode NodeId :=
  fun L first id => ∃ f, first = some f ∧ code.value L f id

def shortCircuit (op : BinOp) (lhs rhs : Code) : Code where
  value L first id :=
    ∃ l r block rest merge f, lhs.value L first l ∧ L.decides op block l rest merge ∧
      L.starts rest f ∧ rhs.value L f r ∧ L.starts merge id ∧ L.node id (.shortCircuit op l r)
  test L first t e :=
    ∃ rest f, (if op = .and then lhs.test L first rest e else lhs.test L first t rest) ∧
      L.starts rest f ∧ rhs.test L f t e

def negation (operand : Code) : Code where
  value := operand.operand.read fun L id o => L.node id (.unary .not o)
  test L first t e := operand.test L first e t

def ternary (condition thenValue elseValue : Code) : Code where
  value L first id :=
    ∃ t e merge l r f f', condition.test L first t e ∧ L.starts t f ∧ thenValue.value L f l ∧
      L.starts e f' ∧ elseValue.value L f' r ∧ L.starts merge id ∧
      L.node id (.ternaryMerge l r)
  test L first t e :=
    ∃ t' e' f f', condition.test L first t' e' ∧ L.starts t' f ∧ thenValue.test L f t e ∧
      L.starts e' f' ∧ elseValue.test L f' t e

end Code

mutual

def Expr.code : Expr → Code
  | .literal value => .ofValue fun L first id => first = id ∧ L.node id (.literal value)
  | .var name => .ofValue fun L first id =>
      first = id ∧ ∃ var, var.name = name ∧ L.node id (.localRead var)
  | .this => .ofValue fun L first id => first = id ∧ L.node id .this
  | .field receiver name =>
      .ofValue (receiver.code.operand.read fun L id r => L.node id (.fieldRead r name))
  | .call receiver method args throws =>
      .ofValue ((OperandCode.both (Expr.receiverCode receiver) (Expr.argsCode args)).read
        fun L id p => L.node id (.call p.1 method p.2) ∧
          L.raises id (Digraph.distinct (runtimeException :: throws)))
  | .new className args =>
      .ofValue ((Expr.argsCode args).read fun L id as =>
        L.node id (.new className as) ∧ L.raises id (Digraph.distinct [runtimeException]))
  | .binary op lhs rhs =>
      if op.isShortCircuit then .shortCircuit op lhs.code rhs.code
      else .ofValue ((OperandCode.both lhs.code.operand rhs.code.operand).read
        fun L id p => L.node id (.binary op p.1 p.2))
  | .unary op operand =>
      if op = .not then .negation operand.code
      else .ofValue (operand.code.operand.read fun L id o => L.node id (.unary op o))
  | .ternary condition thenValue elseValue =>
      .ternary condition.code thenValue.code elseValue.code
  | .cast qualifier operand =>
      .ofValue (operand.code.operand.read fun L id o => L.node id (.cast qualifier o))

def Expr.receiverCode : Option Expr → OperandCode (Option NodeId)
  | none => fun _ first id => first = none ∧ id = none
  | some e => fun L first id => ∃ r, id = some r ∧ e.code.operand L first r

def Expr.argsCode : List Expr → OperandCode (List NodeId)
  | [] => fun _ first ids => first = none ∧ ids = []
  | e :: rest => fun L first ids => ∃ id ids', ids = id :: ids' ∧
      OperandCode.both e.code.operand (Expr.argsCode rest) L first (id, ids')

end

/-! An embedding of listings keeps the code of every expression. -/

namespace Code

/-- The code stands wherever the listing is embedded. -/
structure Mono (c : Code) : Prop where
  value : ∀ {ρ : BlockId → BlockId} {L L' : Listing} {first id : NodeId}, L.Embeds ρ L' →
    c.value L first id → c.value L' first id
  test : ∀ {ρ : BlockId → BlockId} {L L' : Listing} {first : NodeId} {t e : BlockId},
    L.Embeds ρ L' → c.test L first t e → c.test L' first (ρ t) (ρ e)

end Code

structure OperandCode.Mono {α : Type} (code : OperandCode α) : Prop where
  operands : ∀ {ρ : BlockId → BlockId} {L L' : Listing} {first : Option NodeId} {a : α},
    L.Embeds ρ L' → code L first a → code L' first a

theorem OperandCode.Mono.both {α β : Type} {code : OperandCode α} {code' : OperandCode β}
    (h : code.Mono) (h' : code'.Mono) : (code.both code').Mono :=
  ⟨fun hL ⟨f, f', hfirst, hc, hc'⟩ =>
    ⟨f, f', hfirst, h.operands hL hc, h'.operands hL hc'⟩⟩

namespace Code.Mono

variable {c c' c'' : Code}

theorem operand (h : c.Mono) : c.operand.Mono :=
  ⟨fun hL ⟨f, hfirst, hc⟩ => ⟨f, hfirst, h.value hL hc⟩⟩

theorem ofValue {value : Listing → NodeId → NodeId → Prop}
    (h : ∀ {ρ : BlockId → BlockId} {L L' : Listing} {first id : NodeId}, L.Embeds ρ L' →
      value L first id → value L' first id) : (Code.ofValue value).Mono where
  value := h
  test hL := fun ⟨id, _, hvalue, htest⟩ => ⟨id, _, h hL hvalue, hL.tests htest⟩

theorem read {α : Type} {code : OperandCode α} {reader : Listing → NodeId → α → Prop}
    (h : code.Mono) (hreader : ∀ {ρ : BlockId → BlockId} {L L' : Listing} {id : NodeId} {a : α},
      L.Embeds ρ L' → reader L id a → reader L' id a) : (Code.ofValue (code.read reader)).Mono :=
  .ofValue fun hL ⟨f, a, hc, hfirst, hr⟩ => ⟨f, a, h.operands hL hc, hfirst, hreader hL hr⟩

theorem shortCircuit (op : BinOp) (h : c.Mono) (h' : c'.Mono) :
    (Code.shortCircuit op c c').Mono where
  value hL := by
    rintro ⟨l, r, block, rest, merge, f, hl, hdecides, hrest, hr, hmerge, hnode⟩
    exact ⟨l, r, _, _, _, f, h.value hL hl, hL.decides hdecides, hL.starts hrest, h'.value hL hr,
      hL.starts hmerge, hL.node hnode⟩
  test hL := by
    rintro ⟨rest, f, hl, hrest, hr⟩
    refine ⟨_, f, ?_, hL.starts hrest, h'.test hL hr⟩
    split
    · rw [if_pos ‹_›] at hl
      exact h.test hL hl
    · rw [if_neg ‹_›] at hl
      exact h.test hL hl

theorem negation (h : c.Mono) : c.negation.Mono where
  value hL hvalue := by
    have hread : (Code.ofValue (c.operand.read fun L id o => L.node id (.unary .not o))).Mono :=
      .read h.operand fun hL => hL.node
    exact hread.value hL hvalue
  test hL htest := h.test hL htest

theorem ternary (h : c.Mono) (h' : c'.Mono) (h'' : c''.Mono) :
    (Code.ternary c c' c'').Mono where
  value hL := by
    rintro ⟨t, e, merge, l, r, f, f', hcond, ht, hl, he, hr, hmerge, hnode⟩
    exact ⟨_, _, _, l, r, f, f', h.test hL hcond, hL.starts ht, h'.value hL hl, hL.starts he,
      h''.value hL hr, hL.starts hmerge, hL.node hnode⟩
  test hL := by
    rintro ⟨t', e', f, f', hcond, ht, hl, he, hr⟩
    exact ⟨_, _, f, f', h.test hL hcond, hL.starts ht, h'.test hL hl, hL.starts he,
      h''.test hL hr⟩

end Code.Mono

mutual

theorem Expr.code_mono : (e : Expr) → e.code.Mono
  | .literal _ => .ofValue fun hL h => ⟨h.1, hL.node h.2⟩
  | .var _ => .ofValue fun hL ⟨hfirst, x, hname, h⟩ => ⟨hfirst, x, hname, hL.node h⟩
  | .this => .ofValue fun hL h => ⟨h.1, hL.node h.2⟩
  | .field receiver _ => .read receiver.code_mono.operand fun hL => hL.node
  | .call receiver _ args _ =>
      .read (.both (Expr.receiverCode_mono receiver) (Expr.argsCode_mono args))
        fun hL h => ⟨hL.node h.1, hL.raises h.2⟩
  | .new _ args => .read (Expr.argsCode_mono args) fun hL h => ⟨hL.node h.1, hL.raises h.2⟩
  | .binary op lhs rhs => by
      rw [Expr.code]
      split
      · exact .shortCircuit op lhs.code_mono rhs.code_mono
      · exact .read (.both lhs.code_mono.operand rhs.code_mono.operand) fun hL => hL.node
  | .unary op operand => by
      rw [Expr.code]
      split
      · exact operand.code_mono.negation
      · exact .read operand.code_mono.operand fun hL => hL.node
  | .ternary condition thenValue elseValue =>
      .ternary condition.code_mono thenValue.code_mono elseValue.code_mono
  | .cast _ operand => .read operand.code_mono.operand fun hL => hL.node

theorem Expr.receiverCode_mono : (e : Option Expr) → (Expr.receiverCode e).Mono
  | none => ⟨fun _ h => h⟩
  | some e => ⟨fun hL ⟨r, hid, h⟩ => ⟨r, hid, e.code_mono.operand.operands hL h⟩⟩

theorem Expr.argsCode_mono : (es : List Expr) → (Expr.argsCode es).Mono
  | [] => ⟨fun _ h => h⟩
  | e :: rest => ⟨fun hL ⟨id, ids', hids, h⟩ =>
      ⟨id, ids', hids, (e.code_mono.operand.both (Expr.argsCode_mono rest)).operands hL h⟩⟩

end

/-! The expressions of a unit, with the parts of each of them. -/

mutual

/-- An expression and all that it is made of. -/
def Expr.parts : Expr → List Expr
  | .literal value => [.literal value]
  | .var name => [.var name]
  | .this => [.this]
  | .field receiver name => .field receiver name :: receiver.parts
  | .call receiver method args throws =>
      .call receiver method args throws :: (Expr.optionParts receiver ++ Expr.listParts args)
  | .new className args => .new className args :: Expr.listParts args
  | .binary op lhs rhs => .binary op lhs rhs :: (lhs.parts ++ rhs.parts)
  | .unary op operand => .unary op operand :: operand.parts
  | .ternary condition thenValue elseValue =>
      .ternary condition thenValue elseValue ::
        (condition.parts ++ thenValue.parts ++ elseValue.parts)
  | .cast qualifier operand => .cast qualifier operand :: operand.parts

def Expr.optionParts : Option Expr → List Expr
  | none => []
  | some e => e.parts

def Expr.listParts : List Expr → List Expr
  | [] => []
  | e :: rest => e.parts ++ Expr.listParts rest

end

mutual

/-- The expressions in a statement. -/
def Stmt.exprs : Stmt → List Expr
  | .localDecl _ _ init => Expr.optionParts init
  | .assign (.local _) value => value.parts
  | .assign (.field receiver _) value => receiver.parts ++ value.parts
  | .expr value => value.parts
  | .ifElse condition thenBody elseBody =>
      condition.parts ++ Stmt.listExprs thenBody ++ Stmt.optionExprs elseBody
  | .whileLoop _ condition body => condition.parts ++ Stmt.listExprs body
  | .doWhile _ body condition => Stmt.listExprs body ++ condition.parts
  | .forLoop _ init condition update body =>
      Stmt.listExprs init ++ Expr.optionParts condition ++ Stmt.listExprs update ++
        Stmt.listExprs body
  | .breakLoop _ | .continueLoop _ => []
  | .returnValue value | .throw _ value => Expr.optionParts value
  | .tryCatch body handlers finalBody =>
      Stmt.listExprs body ++ Stmt.handlerExprs handlers ++ Stmt.optionExprs finalBody
  | .assert condition => condition.parts

def Stmt.listExprs : List Stmt → List Expr
  | [] => []
  | s :: rest => s.exprs ++ Stmt.listExprs rest

def Stmt.optionExprs : Option (List Stmt) → List Expr
  | none => []
  | some body => Stmt.listExprs body

def Stmt.handlerExprs : List Handler → List Expr
  | [] => []
  | .clause _ _ body :: rest => Stmt.listExprs body ++ Stmt.handlerExprs rest

end

/-- The expressions of a unit. -/
def ProgramUnit.exprs (u : ProgramUnit) : List Expr := Stmt.listExprs u.body

end FlowTyping
