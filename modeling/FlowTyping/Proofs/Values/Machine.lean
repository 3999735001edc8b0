import FlowTyping.Proofs.Flow.Writes
import FlowTyping.Proofs.Values.Locals
import Mathlib.Data.Set.Basic
import Mathlib.Logic.Function.Basic
import Mathlib.Logic.Relation

/-!
What qualifiers mean. A qualifier stands for a set of run-time values; a store describes
the values that keys have, and a split result describes them by the outcome of the test.
-/

namespace FlowTyping

/-- The run-time values that qualifiers stand for, and the values that pass a test. -/
structure Interpretation (h : Hierarchy) (Value : Type) where
  values : Qualifier → Set Value
  passes : Value → Bool
  mono : ∀ {p q}, h.isSubtype p q = true → values p ⊆ values q
  top : values h.top = Set.univ
  meet : ∀ {p q}, h.Has p → h.Has q → values p ∩ values q ⊆ values (h.meet p q)

variable {Value : Type} {h : Hierarchy} {I : Interpretation h Value}
  {look look' : FlowKey → Option Value}

theorem Interpretation.mem_top (I : Interpretation h Value) (v : Value) : v ∈ I.values h.top :=
  I.top ▸ Set.mem_univ v

/-- The store is reached, and the values of all keys are among those that its qualifiers
stand for. -/
structure Store.Describes (I : Interpretation h Value) (look : FlowKey → Option Value) (s : Store) :
    Prop where
  wf : s.Wf h
  reached : s.reachable = true
  values : ∀ key v, look key = some v → v ∈ I.values (s.valueOrTop key)

/-- The store on one outcome of the test. -/
def TransferResult.outcome (r : TransferResult) : Bool → Store
  | true => r.thenStore
  | false => r.elseStore

/-- The store on the outcome of the test describes the values. Where nothing was tested,
both stores do. -/
def TransferResult.Describes (I : Interpretation h Value) (look : FlowKey → Option Value)
    (r : TransferResult) (tested : Option Value) : Prop :=
  ∀ outcome, (∀ v ∈ tested, I.passes v = outcome) → (r.outcome outcome).Describes I look

namespace Store.Describes

variable {s s' : Store} {key : FlowKey} {q : Qualifier}

theorem mono (hs : s.Describes I look) (hle : s.Le h s') (hwf : s'.Wf h) :
    s'.Describes I look where
  wf := hwf
  reached := (hle hs.reached).1
  values key v hv := I.mono ((hle hs.reached).2 key) (hs.values key v hv)

theorem insert (hs : s.Describes I look) (hq : h.Has q)
    (hkey : ∀ v, look key = some v → v ∈ I.values q) : (s.insert key q).Describes I look where
  wf := hs.wf.insert hq
  reached := reachable_insert.trans hs.reached
  values k v hv := by
    rw [valueOrTop_insert]
    split
    · rename_i hk
      exact hkey v (hk.1 ▸ hv)
    · exact hs.values k v hv

/-- Forgetting keys, among them all whose value has changed. -/
theorem retain (hs : s.Describes I look) {keep : FlowKey → Bool}
    (hkeep : ∀ key, keep key = true → look' key = look key) :
    (s.retain keep).Describes I look' where
  wf := hs.wf.retain keep
  reached := hs.reached
  values k v hv := by
    rw [valueOrTop_retain]
    split
    · rename_i hk
      exact hs.values k v ((hkeep k hk).symm.trans hv)
    · rw [hs.wf.top]
      exact I.mem_top v

theorem refine (hh : h.Lawful) (hs : s.Describes I look) (hq : h.Has q)
    (hkey : ∀ v, look key = some v → v ∈ I.values q) : (s.refine h key q).Describes I look := by
  have hhas := hs.wf.has_valueOrTop hh key
  refine hs.insert (hh.has_of_le (hh.meet_le_left hhas hq)).1 fun v hv => ?_
  exact I.meet hhas hq ⟨hs.values key v hv, hkey v hv⟩

theorem refineAll (hh : h.Lawful) {keys : List FlowKey} (hs : s.Describes I look) (hq : h.Has q)
    (hkeys : ∀ key ∈ keys, ∀ v, look key = some v → v ∈ I.values q) :
    (keys.foldl (fun s key => s.refine h key q) s).Describes I look := by
  induction keys generalizing s with
  | nil => exact hs
  | cons key rest ih =>
      obtain ⟨hkey, hrest⟩ := List.forall_mem_cons.mp hkeys
      exact ih (hs.refine hh hq hkey) hrest

theorem regular (hs : s.Describes I look) (tested : Option Value) :
    (TransferResult.regular s).Describes I look tested := by
  intro outcome _
  cases outcome with
  | true => exact hs
  | false => exact hs

end Store.Describes

namespace TransferResult

variable {r r' : TransferResult} {tested : Option Value}

/-- Some outcome is always possible. -/
theorem exists_outcome (I : Interpretation h Value) (tested : Option Value) :
    ∃ outcome, ∀ v ∈ tested, I.passes v = outcome := by
  cases tested with
  | none => exact ⟨true, nofun⟩
  | some v =>
      refine ⟨I.passes v, fun v' hv' => ?_⟩
      rw [Option.mem_some_iff.mp hv']

theorem Le.outcome (hle : r.Le h r') (outcome : Bool) :
    (r.outcome outcome).Le h (r'.outcome outcome) := by
  cases outcome with
  | true => exact hle.thenStore
  | false => exact hle.elseStore

theorem Wf.outcome (hr : r.Wf h) (outcome : Bool) : (r.outcome outcome).Wf h := by
  cases outcome with
  | true => exact hr.thenStore
  | false => exact hr.elseStore

theorem outcome_le_collapse (hh : h.Lawful) (hr : r.Wf h) (outcome : Bool) :
    (r.outcome outcome).Le h (r.collapse h) := by
  cases outcome with
  | true => exact thenStore_le_collapse hh hr
  | false => exact elseStore_le_collapse hh hr

theorem outcome_swap (r : TransferResult) (outcome : Bool) :
    r.swap.outcome outcome = r.outcome (!outcome) := by
  cases outcome with
  | true => exact thenStore_swap r
  | false => exact elseStore_swap r

namespace Describes

theorem mono (hr : r.Describes I look tested) (hle : r.Under h r') :
    r'.Describes I look tested :=
  fun outcome houtcome =>
    (hr outcome houtcome).mono (hle.le.outcome outcome) (hle.right.outcome outcome)

theorem collapse (hh : h.Lawful) (hr : r.Describes I look tested) (hwf : r.Wf h) :
    (r.collapse h).Describes I look := by
  obtain ⟨outcome, houtcome⟩ := exists_outcome I tested
  exact (hr outcome houtcome).mono (outcome_le_collapse hh hwf outcome) (hwf.collapse hh)

/-- A negation comes out as its operand does not. -/
theorem swap {v v' : Value} (hr : r.Describes I look (some v))
    (hnot : I.passes v' = !I.passes v) : r.swap.Describes I look (some v') := by
  intro outcome houtcome
  rw [outcome_swap]
  refine hr _ fun x hx => ?_
  obtain rfl := Option.mem_some_iff.mp hx
  rw [← houtcome v' rfl, hnot, Bool.not_not]

end Describes

end TransferResult

namespace UnitAnalysis

variable {u : UnitAnalysis} {I : Interpretation u.checker.hierarchy Value} {V : NodeValues}
  {node : Node} {s : Store} {receiver : Option NodeId} {args : List NodeId}

/-- The values of the targets of postconditions bear them out. -/
theorem ensures_describes (hc : u.checker.Sound) {posts : List (Postcondition Qualifier)}
    (hs : s.Describes I look) (hhas : ∀ p ∈ posts, u.checker.hierarchy.Has p.qualifier)
    (hposts : ∀ p ∈ posts, ∀ m, p.target.operand? receiver args = some m →
      ∀ key, u.key? m = some key → ∀ v, look key = some v → v ∈ I.values p.qualifier) :
    (posts.foldl (u.ensure receiver args) s).Describes I look := by
  induction posts generalizing s with
  | nil => exact hs
  | cons p rest ih =>
      obtain ⟨hp, hrest⟩ := List.forall_mem_cons.mp hposts
      obtain ⟨hq, hhas⟩ := List.forall_mem_cons.mp hhas
      refine ih ?_ hhas hrest
      unfold ensure
      split
      · rename_i key hkey
        obtain ⟨m, hm, hkey⟩ := Option.bind_eq_some_iff.mp hkey
        exact hs.refine hc.lawful hq (hp m hm key hkey)
      · exact hs

/-- Two operands that are one value when they are equal. -/
theorem splitEquality_describes (hc : u.checker.Sound) {op : BinOp} {lhs rhs : NodeId}
    {p q : Qualifier} {v : Value} {stores : Store × Store} (hs : s.Describes I look)
    (hlhs : V.getD lhs none = some p) (hrhs : V.getD rhs none = some q)
    (hp : u.checker.hierarchy.Has p) (hq : u.checker.hierarchy.Has q)
    (hkeys : I.passes v = decide (op = .eq) → ∀ m, m = lhs ∨ m = rhs → ∀ key,
      u.key? m = some key → ∀ x, look key = some x → x ∈ I.values p ∩ I.values q)
    (h : Refinement.splitEquality (u.context V node) s op lhs rhs = some stores) :
    (TransferResult.split stores.1 stores.2).Describes I look (some v) := by
  have hh := hc.lawful
  have hvalue {m : NodeId} {r : Qualifier} (hm : V.getD m none = some r) :
      (u.context V node).value m = r := by
    rw [TestContext.value]
    simp only [context, hm, Option.getD_some]
  have hequal (heq : I.passes v = decide (op = .eq)) :
      (((u.key? lhs).toList ++ (u.key? rhs).toList).foldl
        (fun s key => s.refine u.checker.hierarchy key (u.checker.hierarchy.meet p q))
        s).Describes I look := by
    refine hs.refineAll hh (hh.has_of_le (hh.meet_le_left hp hq)).1 fun key hkey x hx => ?_
    rcases List.mem_append.mp hkey with hkey | hkey
    · exact I.meet hp hq (hkeys heq lhs (.inl rfl) key (Option.mem_toList.mp hkey) x hx)
    · exact I.meet hp hq (hkeys heq rhs (.inr rfl) key (Option.mem_toList.mp hkey) x hx)
  unfold Refinement.splitEquality at h
  dsimp only at h
  rw [hvalue hlhs, hvalue hrhs] at h
  split at h
  · cases h
  split at h
  · rename_i heq
    cases h
    intro outcome houtcome
    have hv := houtcome v rfl
    cases outcome with
    | true => exact hequal (hv.trans (decide_eq_true heq).symm)
    | false => exact hs
  · rename_i hne
    cases h
    intro outcome houtcome
    have hv := houtcome v rfl
    cases outcome with
    | true => exact hs
    | false => exact hequal (hv.trans (decide_eq_false hne).symm)

/-- The postconditions on the result that a call has. -/
theorem splitCall_describes (hc : u.checker.Sound)
    {posts : List (ConditionalPostcondition Qualifier)} {v : Value} {stores : Store × Store}
    (hs : s.Describes I look) (hhas : ∀ p ∈ posts, u.checker.hierarchy.Has p.qualifier)
    (hposts : ∀ p ∈ posts, I.passes v = p.result →
      ∀ m, p.target.operand? receiver args = some m →
      ∀ key, u.key? m = some key → ∀ x, look key = some x → x ∈ I.values p.qualifier)
    (h : Refinement.splitCall (u.context V node) s receiver args posts = some stores) :
    (TransferResult.split stores.1 stores.2).Describes I look (some v) := by
  unfold Refinement.splitCall at h
  generalize hfound : (none : Option (Store × Store)) = found at h
  have hinv : ∀ x, found = some x →
      (TransferResult.split x.1 x.2).Describes I look (some v) := by
    subst hfound
    exact nofun
  clear hfound
  induction posts generalizing found with
  | nil => exact hinv stores h
  | cons p rest ih =>
      obtain ⟨hp, hrest⟩ := List.forall_mem_cons.mp hposts
      obtain ⟨hq, hhas⟩ := List.forall_mem_cons.mp hhas
      refine ih hhas hrest _ h fun x hx => ?_
      have hold : (TransferResult.split (found.getD (s, s)).1
          (found.getD (s, s)).2).Describes I look (some v) := by
        cases found with
        | none => exact fun outcome houtcome => hs.regular (some v) outcome houtcome
        | some x => exact hinv x rfl
      rcases Option.or_eq_some_iff.mp hx with hx | ⟨-, hx⟩
      swap
      · exact hinv x hx
      obtain ⟨key, hkey, heq⟩ := Option.map_eq_some_iff.mp hx
      obtain ⟨m, hm, hkey⟩ := Option.bind_eq_some_iff.mp hkey
      -- Only the store on the outcome that the postcondition names is narrowed.
      have hnarrow {t : Store} (ht : t.Describes I look) (hresult : I.passes v = p.result) :
          (t.refine u.checker.hierarchy key p.qualifier).Describes I look :=
        ht.refine hc.lawful hq (hp hresult m hm key hkey)
      intro outcome houtcome
      have hstore := hold outcome houtcome
      have hv := houtcome v rfl
      cases hresult : p.result with
      | true =>
          rw [hresult] at heq
          cases heq
          cases outcome with
          | true => exact hnarrow hstore (hv.trans hresult.symm)
          | false => exact hstore
      | false =>
          rw [hresult] at heq
          cases heq
          cases outcome with
          | true => exact hstore
          | false => exact hnarrow hstore (hv.trans hresult.symm)

end UnitAnalysis

end FlowTyping

/-!
Concrete runs along a graph. A run evaluates the nodes of a block in order and leaves by an
edge; it keeps the values of the local variables and the last value of each node. What nodes
may compute is given by the rules and signatures of a checker.
-/

namespace FlowTyping

variable {Value : Type}

/-- A variable may have the value by its declaration. -/
def Checker.Allows (c : Checker) (I : Interpretation c.hierarchy Value) (var : LocalVar)
    (v : Value) : Prop :=
  ∀ node q, c.localBound node var = .ok q → v ∈ I.values q

namespace AnalyzedUnit

/-- Some diagnostic is about the node. -/
def Flags (a : AnalyzedUnit) (id : NodeId) : Prop := ∃ d ∈ a.diagnostics, d.node = id

end AnalyzedUnit

/-- The successor of a block that has completed, where no test chooses it. -/
def BlockKind.next? : BlockKind → Option BlockId
  | .regular successor => some successor
  | .exceptional successor _ | .special _ successor => successor
  | .conditional _ _ _ => none

/-- The node whose outcome a block ends with. -/
def Block.tested? (b : Block) : Option NodeId :=
  match b.kind with
  | .conditional condition _ _ => some condition
  | _ => b.lastNode?

def FlowGraph.nodesOf (g : FlowGraph) (b : BlockId) : List NodeId :=
  ((g.block? b).map Block.nodes).getD []

/-- The values of the local variables after a node. -/
def NodeKind.write (kind : NodeKind) (env : String → Option Value) (w : Option Value) :
    String → Option Value :=
  match kind with
  | .localDecl var | .assign (.local var) _ => Function.update env var.name w
  | _ => env

/-- The values that keys stand for, where a store over local variables may hold them. -/
def FlowKey.look (object : Value) (env : String → Option Value) : FlowKey → Option Value
  | .local name => env name
  | .this => some object
  | _ => none

/-- A point of a run: where it stands, the nodes of the block that it has still to evaluate,
the values of the local variables, and the last value of each node. -/
structure RunState (Value : Type) where
  block : BlockId
  rest : List NodeId
  env : String → Option Value
  value : NodeId → Option Value

namespace RunState

/-- The node is evaluated. -/
def record (σ : RunState Value) (node : Node) (rest : List NodeId) (w : Option Value) :
    RunState Value where
  block := σ.block
  rest := rest
  env := node.kind.write σ.env w
  value := Function.update σ.value node.id w

/-- The run goes on at the start of a block. -/
def enter (σ : RunState Value) (g : FlowGraph) (b : BlockId) : RunState Value :=
  { σ with block := b, rest := g.nodesOf b }

/-- The target of a postcondition bears it out. -/
def Meets {h : Hierarchy} (I : Interpretation h Value) (σ : RunState Value)
    (receiver : Option NodeId) (args : List NodeId) (target : PostconditionTarget)
    (q : Qualifier) : Prop :=
  ∀ m, target.operand? receiver args = some m → ∀ x, σ.value m = some x → x ∈ I.values q

/-- A node may compute a value, or none where it is an effect only. The qualifiers of
literals, creations, calls, comparisons and casts are those of the checker, those of other
operations come from the qualifiers found for their operands. A negation exchanges the
outcomes, and operands are only equal if they are one value. An assignment that a diagnostic
is about keeps the bound of its variable all the same. -/
inductive Computes (c : Checker) (I : Interpretation c.hierarchy Value) (object : Value)
    (a : AnalyzedUnit) (σ : RunState Value) (node : Node) : Option Value → Prop
  | literal {value : Literal} {v : Value} (kind : node.kind = .literal value)
      (fits : v ∈ I.values (c.implicit.evaluate (.literal value))) :
      Computes c I object a σ node (some v)
  | localRead {var : LocalVar} {v : Value} (kind : node.kind = .localRead var)
      (held : σ.env var.name = some v) : Computes c I object a σ node (some v)
  | this (kind : node.kind = .this) : Computes c I object a σ node (some object)
  | fieldRead {receiver : NodeId} {field : String} {v : Value}
      (kind : node.kind = .fieldRead receiver field) (fits : v ∈ I.values (c.fieldBound field)) :
      Computes c I object a σ node (some v)
  | call {receiver : Option NodeId} {method : String} {args : List NodeId} {v : Value}
      (kind : node.kind = .call receiver method args) (fits : v ∈ I.values (c.callResult method))
      (ensures : ∀ signature, c.signatures.method? method = some signature →
        ∀ p ∈ signature.ensures, σ.Meets I receiver args p.target p.qualifier)
      (ensuresIf : ∀ signature, c.signatures.method? method = some signature →
        ∀ p ∈ signature.ensuresIf, I.passes v = p.result →
          σ.Meets I receiver args p.target p.qualifier) :
      Computes c I object a σ node (some v)
  | new {className : String} {args : List NodeId} {v : Value}
      (kind : node.kind = .new className args) (fits : v ∈ I.values (c.element .newObject)) :
      Computes c I object a σ node (some v)
  | binary {op : BinOp} {lhs rhs : NodeId} {v : Value} (kind : node.kind = .binary op lhs rhs)
      (ruled : ∀ q, c.implicit.find? (.element (UnitAnalysis.syntaxOf op)) = some q →
        v ∈ I.values q)
      (joined : c.implicit.find? (.element (UnitAnalysis.syntaxOf op)) = none →
        op.isComparison = false → ∀ p q, a.values.getD lhs none = some p →
        a.values.getD rhs none = some q → v ∈ I.values (c.hierarchy.join p q))
      (equal : op.isEquality = true → I.passes v = decide (op = .eq) →
        σ.value lhs = σ.value rhs) :
      Computes c I object a σ node (some v)
  | unary {op : UnaryOp} {operand : NodeId} {x v : Value} (kind : node.kind = .unary op operand)
      (source : σ.value operand = some x) (negates : op = .not → I.passes v = !I.passes x)
      (fits : ∀ q, a.values.getD operand none = some q → v ∈ I.values q) :
      Computes c I object a σ node (some v)
  | shortCircuit {op : BinOp} {lhs rhs : NodeId} {v : Value}
      (kind : node.kind = .shortCircuit op lhs rhs)
      (source : σ.value lhs = some v ∨ σ.value rhs = some v) :
      Computes c I object a σ node (some v)
  | ternaryMerge {thenValue elseValue : NodeId} {v : Value}
      (kind : node.kind = .ternaryMerge thenValue elseValue)
      (source : σ.value thenValue = some v ∨ σ.value elseValue = some v) :
      Computes c I object a σ node (some v)
  | cast {qualifier : String} {operand : NodeId} {v : Value}
      (kind : node.kind = .cast qualifier operand)
      (fits : ∀ q, c.resolveAt node qualifier = .ok q → v ∈ I.values q) :
      Computes c I object a σ node (some v)
  | localDecl {var : LocalVar} {w : Option Value} (kind : node.kind = .localDecl var)
      (fits : ∀ v, w = some v → c.Allows I var v) : Computes c I object a σ node w
  | assign {target : NodeTarget} {operand : NodeId} {v : Value}
      (kind : node.kind = .assign target operand) (source : σ.value operand = some v)
      (kept : a.Flags node.id → ∀ var, target = .local var → c.Allows I var v) :
      Computes c I object a σ node (some v)
  | returnValue {operand : Option NodeId} (kind : node.kind = .returnValue operand) :
      Computes c I object a σ node (operand.bind σ.value)
  | throw {category : String} {operand : Option NodeId}
      (kind : node.kind = .throw category operand) :
      Computes c I object a σ node (operand.bind σ.value)
  | assertFailure (kind : node.kind = .assertFailure) : Computes c I object a σ node none

/-- A step of a run. A raising block may be left before its node takes effect; a test leads
to its then edge exactly when its value passes. -/
inductive Step (c : Checker) (I : Interpretation c.hierarchy Value) (object : Value)
    (a : AnalyzedUnit) : RunState Value → RunState Value → Prop
  | evaluate {σ : RunState Value} {id : NodeId} {rest : List NodeId} {node : Node}
      {w : Option Value} (next : σ.rest = id :: rest) (node? : a.graph.node? id = some node)
      (computes : σ.Computes c I object a node w) : Step c I object a σ (σ.record node rest w)
  | raise {σ : RunState Value} {block : Block} {successor : Option BlockId}
      {handlers : List (String × BlockId)} {handler : String × BlockId}
      (block? : a.graph.block? σ.block = some block)
      (kind : block.kind = .exceptional successor handlers) (rest : σ.rest = block.nodes)
      (handler_mem : handler ∈ handlers) : Step c I object a σ (σ.enter a.graph handler.2)
  | follow {σ : RunState Value} {block : Block} {t : BlockId}
      (block? : a.graph.block? σ.block = some block) (rest : σ.rest = [])
      (next : block.kind.next? = some t) : Step c I object a σ (σ.enter a.graph t)
  | branch {σ : RunState Value} {block : Block} {condition t e : Nat} {v : Value}
      (block? : a.graph.block? σ.block = some block)
      (kind : block.kind = .conditional condition t e) (tested : σ.value condition = some v) :
      Step c I object a σ (σ.enter a.graph (if I.passes v then t else e))

/-- A run begins at the entry, before any node, with values in the variables of the unit
that these may have, if any. -/
structure Starts (c : Checker) (I : Interpretation c.hierarchy Value) (u : ProgramUnit)
    (a : AnalyzedUnit) (σ : RunState Value) : Prop where
  block : σ.block = a.graph.entry
  rest : σ.rest = a.graph.nodesOf a.graph.entry
  value : ∀ id, σ.value id = none
  env : ∀ var ∈ u.locals, ∀ v, σ.env var.name = some v → c.Allows I var v

/-- What an analysis has found describes a point of a run: the values of nodes and variables,
those of the variables by what the evaluated nodes make of the fact before the block, and by
the fact after the block where the run is done with it. Where a test was evaluated last, it
does so on the outcome of the test. -/
structure Described (A : UnitAnalysis) (I : Interpretation A.checker.hierarchy Value)
    (object : Value) (u : ProgramUnit) (a : AnalyzedUnit) (σ : RunState Value) : Prop where
  nodes : ∀ id v, σ.value id = some v →
    ∃ q, a.values.getD id none = some q ∧ v ∈ I.values q
  bounds : ∀ var ∈ u.locals, ∀ v, σ.env var.name = some v → A.checker.Allows I var v
  inside : ∃ f done r, a.fixpoint.inFact σ.block = some f ∧
    a.graph.nodesOf σ.block = done ++ σ.rest ∧
    A.runNodes done ⟨a.values, f, []⟩ = (⟨a.values, r, []⟩, none) ∧
    (r.collapse A.checker.hierarchy).Describes I (FlowKey.look object σ.env) ∧
    ∀ m, done.getLast? = some m → r.Describes I (FlowKey.look object σ.env) (σ.value m)
  after : σ.rest = [] → ∃ f, a.fixpoint.outFact σ.block = some f ∧
    (f.collapse A.checker.hierarchy).Describes I (FlowKey.look object σ.env) ∧
    ∀ block m, a.graph.block? σ.block = some block → block.tested? = some m →
      f.Describes I (FlowKey.look object σ.env) (σ.value m)

end RunState

end FlowTyping
