import FlowTyping.Proofs.Bounds.Graphs
import FlowTyping.Proofs.Bounds.Access
import FlowTyping.Proofs.Flow.Runs

/-!
The transfer of nodes with checked accesses: to the qualifiers and the keys of nodes, to their
consumers, and to the tables of the hierarchy.
-/

namespace FlowTyping

namespace Checked

def operand (values : NodeValues) (node : Node) (id : NodeId) :
    Checked AnalysisError Qualifier := do
  match ← access values[id]? with
  | some q => return q
  | none => throw (.missingOperand id node.id node.block)

variable (u : UnitAnalysis)

def key? (id : NodeId) : Option (Option FlowKey) := do
  let key ← u.keys[id]?
  return key.filter FlowKey.isRefinable

def flowValue (s : Store) (key : Option FlowKey) (declared : Qualifier) : Option Qualifier :=
  match key.bind s.get? with
  | some flow => meet u.checker.hierarchy flow declared
  | none => some declared

def clamp (source bound : Qualifier) : Option Qualifier := do
  let below ← isSubtype u.checker.hierarchy source bound
  return if below then source else bound

def ensure (receiver : Option NodeId) (args : List NodeId) (s : Store)
    (p : Postcondition Qualifier) : Option Store :=
  match p.target.operand? receiver args with
  | none => some s
  | some id => do
      match ← key? u id with
      | some key => refine u.checker.hierarchy s key p.qualifier
      | none => return s

def joinOperands (values : NodeValues) (node : Node) (a b : NodeId) :
    Checked AnalysisError Qualifier := do
  let left ← operand values node a
  let right ← operand values node b
  access (join u.checker.hierarchy left right)

def evaluate (values : NodeValues) (node : Node) (s : Store) :
    Checked AnalysisError (Qualifier × Store) :=
  let c := u.checker
  match node.kind with
  | .literal value => return (c.implicit.evaluate (.literal value), s)
  | .localRead var => do
      let bound ← ofExcept (c.localBound node var)
      let value ← access (flowValue u s (some (.local var.name)) bound)
      return (value, s)
  | .this => return (s.valueOrTop .this, s)
  | .fieldRead _ field => do
      let key ← access (key? u node.id)
      let value ← access (flowValue u s key (c.fieldBound field))
      return (value, s)
  | .call receiver method args => do
      let s := if c.signatures.isPure method then s else s.invalidateHeap
      let key ← access (key? u node.id)
      let value ← access (flowValue u s key (c.callResult method))
      let posts := ((c.signatures.method? method).map MethodSignature.ensures).getD []
      let s ← access (posts.foldlM (ensure u receiver args) s)
      return (value, s)
  | .new _ _ => return (c.element .newObject, s.invalidateHeap)
  | .binary op lhs rhs =>
      match c.implicit.find? (.element (UnitAnalysis.syntaxOf op)) with
      | some q => return (q, s)
      | none =>
          if op.isComparison then return (c.hierarchy.top, s)
          else (·, s) <$> joinOperands u values node lhs rhs
  | .shortCircuit _ lhs rhs => (·, s) <$> joinOperands u values node lhs rhs
  | .ternaryMerge thenValue elseValue => (·, s) <$> joinOperands u values node thenValue elseValue
  | .cast qualifier _ => (·, s) <$> ofExcept (c.resolveAt node qualifier)
  | .unary _ id => (·, s) <$> operand values node id
  | .localDecl var => (·, s.invalidateLocal var.name) <$> ofExcept (c.localBound node var)
  | .assign (.local var) id => do
      let source ← operand values node id
      let bound ← ofExcept (c.localBound node var)
      let assigned ← access (clamp u source bound)
      return (assigned, (s.invalidateLocal var.name).insert (.local var.name) assigned)
  | .assign (.field receiver field) id => do
      let source ← operand values node id
      let assigned ← access (clamp u source (c.fieldBound field))
      let key ← access (key? u receiver)
      let s := s.invalidateField field
      return (assigned,
        match key with
        | some key => s.insert (.field key field) assigned
        | none => s)
  | .returnValue (some id) | .throw _ (some id) => (·, s) <$> operand values node id
  | .returnValue none | .throw _ none | .assertFailure => return (c.hierarchy.top, s)

section Tests

variable (c : TestContext)

def splitEquality (s : Store) (op : BinOp) (lhs rhs : NodeId) :
    Option (Option (Store × Store)) :=
  let keys := (c.key? lhs).toList ++ (c.key? rhs).toList
  if keys.isEmpty then some none
  else do
    let common ← meet c.hierarchy (c.value lhs) (c.value rhs)
    let equal ← keys.foldlM (fun s key => refine c.hierarchy s key common) s
    return if op = .eq then some (equal, s) else some (s, equal)

def refineOutcome (receiver : Option NodeId) (args : List NodeId) (stores : Store × Store)
    (p : ConditionalPostcondition Qualifier) : Option (Option (Store × Store)) :=
  match (p.target.operand? receiver args).bind c.key? with
  | none => some none
  | some key => do
      if p.result then
        let refined ← refine c.hierarchy stores.1 key p.qualifier
        return some (refined, stores.2)
      else
        let refined ← refine c.hierarchy stores.2 key p.qualifier
        return some (stores.1, refined)

def splitCall (s : Store) (receiver : Option NodeId) (args : List NodeId)
    (posts : List (ConditionalPostcondition Qualifier)) : Option (Option (Store × Store)) :=
  posts.foldlM
    (fun found p => do
      let refined ← refineOutcome c receiver args (found.getD (s, s)) p
      return refined.or found)
    none

def split (s : Store) : Refinement → Option (Option (Store × Store))
  | .equality =>
      match c.node.kind with
      | .binary op lhs rhs => splitEquality c s op lhs rhs
      | _ => some none
  | .postcondition =>
      match c.node.kind with
      | .call receiver method args =>
          match c.signatures.method? method with
          | none => some none
          | some signature => splitCall c s receiver args signature.ensuresIf
      | _ => some none

def firstSplit (s : Store) : List Refinement → Option (Option TransferResult)
  | [] => some none
  | r :: rest => do
      match ← split c s r with
      | some stores => return some (.split stores.1 stores.2)
      | none => firstSplit s rest

def refine? (refinements : List Refinement) (s : Store) : Option (Option TransferResult) :=
  firstSplit c s (refinements.filter fun r => r.appliesTo c.signatures c.node.kind)

end Tests

/-- A trace names the qualifier of every node. -/
def transferNode (values : NodeValues) (node : Node) (input : TransferResult) :
    Checked AnalysisError (Qualifier × TransferResult) := do
  let h := u.checker.hierarchy
  node.kind.operands.forM fun id => discard (operand values node id)
  match node.kind with
  | .unary .not id => do
      let value ← operand values node id
      return (value, input.swap)
  | _ => do
      let s ← access (collapse h input)
      let (value, s) ← evaluate u values node s
      let _ ← access (name h value)
      let context : TestContext := ⟨node, h, u.checker.signatures, values, u.keys⟩
      let refined ← access
        (refine? context (Refinement.enabled u.checker.refinesEquality) s)
      return (value, refined.getD (.regular s))

def joinOnto (h : Hierarchy) (old : Option Qualifier) (value : Qualifier) : Option Qualifier :=
  match old with
  | some old => join h old value
  | none => some value

def recordValue (id : NodeId) (value : Qualifier) (run : UnitAnalysis.BlockRun) :
    Option UnitAnalysis.BlockRun := do
  let old ← run.values[id]?
  let joined ← joinOnto u.checker.hierarchy old value
  if old = some joined then return run
  else
    let values ← write run.values id (some joined)
    let readers ← u.consumers[id]?
    return { run with
      values := values
      revisit := run.revisit ++ readers.filter (· ∉ run.revisit) }

def runNodes : List NodeId → UnitAnalysis.BlockRun →
    Option (UnitAnalysis.BlockRun × Option AnalysisError)
  | [], run => some (run, none)
  | id :: rest, run => do
      let node ← u.graph.nodes[id]?
      match ← (transferNode u run.values node run.current).run with
      | .error e => return (run, some e)
      | .ok (value, result) => do
          let recorded ← recordValue u id value run
          runNodes rest { recorded with current := result }

def runBlock (block : Block) (values : NodeValues) (input : TransferResult) :
    Option (UnitAnalysis.BlockRun × Option AnalysisError) :=
  runNodes u block.nodes ⟨values, input, []⟩

end Checked

/-- The node is one of the graph, and so are its operands. -/
structure Places (g : FlowGraph) (node : Node) : Prop where
  id : node.id < g.nodeCount
  operands : ∀ o ∈ node.kind.operands, o < g.nodeCount

theorem FlowGraph.Closed.places {g : FlowGraph} (hg : g.Closed) {i : Nat} {node : Node}
    (hnode : g.nodes[i]? = some node) : Places g node where
  id := by
    rw [hg.node hnode]
    exact (Array.getElem?_eq_some_iff.mp hnode).1
  operands := hg.operands hnode

/-- The qualifiers of the nodes are those of a hierarchy. -/
structure NodeValues.Bounded (h : Hierarchy) (n : Nat) (V : NodeValues) : Prop where
  size : V.size = n
  has : ∀ {id : NodeId} {q : Qualifier}, V.getD id none = some q → h.Has q

/-- Whatever the analysis of a unit refers to is in the tables. -/
structure UnitAnalysis.Closed (u : UnitAnalysis) : Prop where
  sound : u.checker.Sound
  hierarchy : u.checker.hierarchy.Closed
  graph : u.graph.Closed
  initial : u.initial.Wf u.checker.hierarchy
  keys : u.keys.size = u.graph.nodeCount
  consumers : u.consumers.size = u.graph.nodeCount
  readers : ∀ id, ∀ b ∈ u.consumers.getD id [], b < u.graph.size

open Checked

namespace NodeValues.Bounded

variable {h : Hierarchy} {n : Nat} {V : NodeValues} {node : Node} {id : NodeId}

theorem set (hV : Bounded h n V) {q : Qualifier} (hq : h.Has q) :
    Bounded h n (V.setIfInBounds id (some q)) := by
  refine ⟨Array.size_setIfInBounds.trans hV.size, fun {j} {q'} hj => ?_⟩
  rw [UnitAnalysis.getD_setIfInBounds] at hj
  split at hj
  · cases hj
    exact hq
  · exact hV.has hj

theorem operand (hV : Bounded h n V) (hid : id < n) :
    Delivers (Checked.operand V node id) (UnitAnalysis.operand V node id) h.Has := by
  apply (gives_getD (hV.size ▸ hid) none).access
  intro _
  unfold UnitAnalysis.operand
  cases hq : V.getD id none with
  | none => exact .error _
  | some q => exact .ok (hV.has hq)

end NodeValues.Bounded

namespace UnitAnalysis.Closed

variable {u : UnitAnalysis} {V : NodeValues} {node : Node} {s : Store}

theorem gives_key? (hu : u.Closed) {id : NodeId} (hid : id < u.graph.nodeCount) :
    Gives (Checked.key? u id) (u.key? id) fun _ => True :=
  (gives_getD (hu.keys ▸ hid) none).bind fun _ => .pure trivial

theorem gives_flowValue (hu : u.Closed) (hs : s.Wf u.checker.hierarchy) (key : Option FlowKey)
    {declared : Qualifier} (hd : u.checker.hierarchy.Has declared) :
    Gives (Checked.flowValue u s key declared) (u.flowValue s key declared)
      u.checker.hierarchy.Has := by
  unfold Checked.flowValue UnitAnalysis.flowValue
  cases hflow : key.bind s.get? with
  | none => exact .pure hd
  | some flow =>
      obtain ⟨k, -, hk⟩ := Option.bind_eq_some_iff.mp hflow
      exact hu.hierarchy.gives_meet (hs.has_of_get? hk) hd

theorem gives_clamp (hu : u.Closed) {source bound : Qualifier}
    (hsource : u.checker.hierarchy.Has source) (hbound : u.checker.hierarchy.Has bound) :
    Gives (Checked.clamp u source bound) (u.clamp source bound) u.checker.hierarchy.Has := by
  apply (hu.hierarchy.gives_isSubtype hsource hbound).bind
  intro _
  unfold UnitAnalysis.clamp
  cases u.checker.hierarchy.isSubtype source bound with
  | true => exact .pure hsource
  | false => exact .pure hbound

/-- A postcondition speaks about an operand of the call. -/
theorem mem_of_operand? {receiver : Option NodeId} {args : List NodeId} {id : NodeId}
    {target : PostconditionTarget} (h : target.operand? receiver args = some id) :
    id ∈ receiver.toList ++ args := by
  cases target with
  | receiver => exact List.mem_append_left _ (Option.mem_toList.mpr h)
  | argument index => exact List.mem_append_right _ (List.mem_of_getElem? h)

theorem gives_ensure (hu : u.Closed) {receiver : Option NodeId} {args : List NodeId}
    (hargs : ∀ o ∈ receiver.toList ++ args, o < u.graph.nodeCount)
    (hs : s.Wf u.checker.hierarchy) {p : Postcondition Qualifier}
    (hp : u.checker.hierarchy.Has p.qualifier) :
    Gives (Checked.ensure u receiver args s p) (u.ensure receiver args s p)
      (Store.Wf u.checker.hierarchy) := by
  unfold Checked.ensure UnitAnalysis.ensure
  cases htarget : p.target.operand? receiver args with
  | none => exact .pure hs
  | some id =>
      apply (hu.gives_key? (hargs id (mem_of_operand? htarget))).bind
      intro _
      dsimp only [Option.bind_some]
      cases u.key? id with
      | none => exact .pure hs
      | some key => exact hu.hierarchy.gives_refine hs hp key

theorem delivers_joinOperands (hu : u.Closed) (hV : V.Bounded u.checker.hierarchy u.graph.nodeCount)
    {a b : NodeId} (ha : a < u.graph.nodeCount) (hb : b < u.graph.nodeCount) :
    Delivers (Checked.joinOperands u V node a b) (u.joinOperands V node a b)
      u.checker.hierarchy.Has := by
  apply (hV.operand ha).bind
  intro left hleft
  apply (hV.operand hb).bind
  intro right hright
  exact (hu.hierarchy.gives_join hleft hright).succeeds

theorem delivers_evaluate (hu : u.Closed) (hV : V.Bounded u.checker.hierarchy u.graph.nodeCount)
    (hnode : Places u.graph node) (hs : s.Wf u.checker.hierarchy) :
    Delivers (Checked.evaluate u V node s) (u.evaluate V node s) fun r =>
      u.checker.hierarchy.Has r.1 ∧ r.2.Wf u.checker.hierarchy := by
  have hc := hu.sound
  have hheap : s.invalidateHeap.Wf u.checker.hierarchy := hs.retain _
  have hlocal (name : String) : (s.invalidateLocal name).Wf u.checker.hierarchy := hs.retain _
  have hfield (name : String) : (s.invalidateField name).Wf u.checker.hierarchy := hs.retain _
  obtain ⟨hid, hoperands⟩ := hnode
  obtain ⟨id, block, kind⟩ := node
  unfold Checked.evaluate UnitAnalysis.evaluate
  cases kind with
  | literal value => exact .ok ⟨hc.has_evaluate _, hs⟩
  | localRead var =>
      apply (Delivers.ofExcept fun q hq => hc.has_localBound hq).bind
      intro bound hbound
      apply (hu.gives_flowValue hs (some (.local var.name)) hbound).access
      intro hvalue
      exact .ok ⟨hvalue, hs⟩
  | this => exact .ok ⟨hs.has_valueOrTop hc.lawful .this, hs⟩
  | fieldRead receiver field =>
      apply (hu.gives_key? hid).access
      intro _
      apply (hu.gives_flowValue hs _ (hc.has_fieldBound field)).access
      intro hvalue
      exact .ok ⟨hvalue, hs⟩
  | call receiver method args =>
      have hcalled : (if u.checker.signatures.isPure method then s else s.invalidateHeap).Wf
          u.checker.hierarchy := by
        split
        · exact hs
        · exact hheap
      have hposts :
          ∀ p ∈ ((u.checker.signatures.method? method).map MethodSignature.ensures).getD [],
            u.checker.hierarchy.Has p.qualifier := by
        cases hmethod : u.checker.signatures.method? method with
        | none => simp
        | some signature => exact (hc.within hmethod).ensures
      apply (hu.gives_key? hid).access
      intro _
      apply (hu.gives_flowValue hcalled _ (hc.has_callResult method)).access
      intro hvalue
      apply (Gives.foldlM (fun s hs p hp => hu.gives_ensure hoperands hs (hposts p hp))
        hcalled).access
      intro hensured
      exact .ok ⟨hvalue, hensured⟩
  | new className args => exact .ok ⟨hc.has_evaluate _, hheap⟩
  | binary op lhs rhs =>
      dsimp only
      cases hq : u.checker.implicit.find? (.element (syntaxOf op)) with
      | some q => exact .ok ⟨hc.implicit _ q hq, hs⟩
      | none =>
          dsimp only
          split
          · exact .ok ⟨hc.lawful.has_top, hs⟩
          · exact (hu.delivers_joinOperands hV (hoperands lhs (by simp [NodeKind.operands]))
              (hoperands rhs (by simp [NodeKind.operands]))).map fun _ hq => ⟨hq, hs⟩
  | unary op operand =>
      exact (hV.operand (hoperands operand (by simp [NodeKind.operands]))).map fun _ hq => ⟨hq, hs⟩
  | shortCircuit op lhs rhs =>
      exact (hu.delivers_joinOperands hV (hoperands lhs (by simp [NodeKind.operands]))
        (hoperands rhs (by simp [NodeKind.operands]))).map fun _ hq => ⟨hq, hs⟩
  | ternaryMerge thenValue elseValue =>
      exact (hu.delivers_joinOperands hV (hoperands thenValue (by simp [NodeKind.operands]))
        (hoperands elseValue (by simp [NodeKind.operands]))).map fun _ hq => ⟨hq, hs⟩
  | cast qualifier operand =>
      exact (Delivers.ofExcept fun q hq => Checker.Sound.has_resolveAt hq).map fun _ hq => ⟨hq, hs⟩
  | localDecl var =>
      exact (Delivers.ofExcept fun q hq => hc.has_localBound hq).map fun _ hq => ⟨hq, hlocal _⟩
  | assign target value =>
      cases target with
      | «local» var =>
          apply (hV.operand (hoperands value (by simp [NodeKind.operands]))).bind
          intro source hsource
          apply (Delivers.ofExcept fun q hq => hc.has_localBound hq).bind
          intro bound hbound
          apply (hu.gives_clamp hsource hbound).access
          intro hassigned
          have hinserted : ((s.invalidateLocal var.name).insert (.local var.name)
              (u.clamp source bound)).Wf u.checker.hierarchy := (hlocal var.name).insert hassigned
          exact .ok ⟨hassigned, hinserted⟩
      | field receiver field =>
          apply (hV.operand (hoperands value (by simp [NodeKind.operands]))).bind
          intro source hsource
          apply (hu.gives_clamp hsource (hc.has_fieldBound field)).access
          intro hassigned
          apply (hu.gives_key? (hoperands receiver (by simp [NodeKind.operands]))).access
          intro _
          refine .ok ⟨hassigned, ?_⟩
          dsimp only
          cases u.key? receiver with
          | none => exact hfield field
          | some key => exact (hfield field).insert hassigned
  | returnValue value =>
      cases value with
      | none => exact .ok ⟨hc.lawful.has_top, hs⟩
      | some operand =>
          exact (hV.operand (hoperands operand (by simp [NodeKind.operands]))).map
            fun _ hq => ⟨hq, hs⟩
  | throw exception value =>
      cases value with
      | none => exact .ok ⟨hc.lawful.has_top, hs⟩
      | some operand =>
          exact (hV.operand (hoperands operand (by simp [NodeKind.operands]))).map
            fun _ hq => ⟨hq, hs⟩
  | assertFailure => exact .ok ⟨hc.lawful.has_top, hs⟩

end UnitAnalysis.Closed

namespace TestContext

variable {c : TestContext} {s : Store}

/-- The qualifiers that a test reads are those of its hierarchy. -/
structure Closed (c : TestContext) : Prop where
  hierarchy : c.hierarchy.Closed
  has : ∀ {id : NodeId} {q : Qualifier}, c.values.getD id none = some q → c.hierarchy.Has q
  signatures : ∀ {method : String} {s : MethodSignature Qualifier},
    c.signatures.method? method = some s → s.Within c.hierarchy

/-- The stores of both outcomes are over a hierarchy. -/
abbrev SplitWf (h : Hierarchy) (found : Option (Store × Store)) : Prop :=
  ∀ stores, found = some stores → stores.1.Wf h ∧ stores.2.Wf h

namespace Closed

theorem has_value (hc : c.Closed) (id : NodeId) : c.hierarchy.Has (c.value id) := by
  unfold value
  cases hq : c.values.getD id none with
  | none => exact hc.hierarchy.has_top
  | some q => exact hc.has hq

theorem gives_splitEquality (hc : c.Closed) (hs : s.Wf c.hierarchy) (op : BinOp)
    (lhs rhs : NodeId) :
    Gives (Checked.splitEquality c s op lhs rhs) (Refinement.splitEquality c s op lhs rhs)
      (SplitWf c.hierarchy) := by
  unfold Checked.splitEquality Refinement.splitEquality
  dsimp only
  split
  · exact .pure nofun
  · apply (hc.hierarchy.gives_meet (hc.has_value lhs) (hc.has_value rhs)).bind
    intro hcommon
    apply (Gives.foldlM (fun s hs key _ => hc.hierarchy.gives_refine hs hcommon key) hs).bind
    intro hequal
    apply Gives.pure
    intro stores hstores
    split at hstores
    · cases hstores
      exact ⟨hequal, hs⟩
    · cases hstores
      exact ⟨hs, hequal⟩

theorem gives_refineOutcome (hc : c.Closed) (receiver : Option NodeId) (args : List NodeId)
    {stores : Store × Store} (hstores : stores.1.Wf c.hierarchy ∧ stores.2.Wf c.hierarchy)
    {p : ConditionalPostcondition Qualifier} (hp : c.hierarchy.Has p.qualifier) :
    Gives (Checked.refineOutcome c receiver args stores p)
      (Refinement.refineOutcome c receiver args stores p) (SplitWf c.hierarchy) := by
  unfold Checked.refineOutcome Refinement.refineOutcome
  cases (p.target.operand? receiver args).bind c.key? with
  | none => exact .pure nofun
  | some key =>
      dsimp only [Option.map_some]
      split
      · apply (hc.hierarchy.gives_refine hstores.1 hp key).bind
        intro hrefined
        apply Gives.pure
        rintro _ ⟨⟩
        exact ⟨hrefined, hstores.2⟩
      · apply (hc.hierarchy.gives_refine hstores.2 hp key).bind
        intro hrefined
        apply Gives.pure
        rintro _ ⟨⟩
        exact ⟨hstores.1, hrefined⟩

theorem gives_splitCall (hc : c.Closed) (hs : s.Wf c.hierarchy) (receiver : Option NodeId)
    (args : List NodeId) {posts : List (ConditionalPostcondition Qualifier)}
    (hposts : ∀ p ∈ posts, c.hierarchy.Has p.qualifier) :
    Gives (Checked.splitCall c s receiver args posts)
      (Refinement.splitCall c s receiver args posts) (SplitWf c.hierarchy) := by
  refine Gives.foldlM (fun found hfound p hp => ?_) nofun
  have hstores : (found.getD (s, s)).1.Wf c.hierarchy ∧ (found.getD (s, s)).2.Wf c.hierarchy := by
    cases found with
    | none => exact ⟨hs, hs⟩
    | some stores => exact hfound stores rfl
  apply (hc.gives_refineOutcome receiver args hstores (hposts p hp)).bind
  intro hrefined
  apply Gives.pure
  intro stores heq
  rcases Option.or_eq_some_iff.mp heq with heq | ⟨-, heq⟩
  · exact hrefined stores heq
  · exact hfound stores heq

theorem gives_split (hc : c.Closed) (hs : s.Wf c.hierarchy) (r : Refinement) :
    Gives (Checked.split c s r) (r.split c s) (SplitWf c.hierarchy) := by
  unfold Checked.split Refinement.split
  cases r with
  | equality =>
      cases c.node.kind with
      | binary op lhs rhs => exact hc.gives_splitEquality hs op lhs rhs
      | _ => exact .pure nofun
  | postcondition =>
      cases c.node.kind with
      | call receiver method args =>
          dsimp only
          cases hmethod : c.signatures.method? method with
          | none => exact .pure nofun
          | some signature =>
              exact hc.gives_splitCall hs receiver args (hc.signatures hmethod).ensuresIf
      | _ => exact .pure nofun

theorem gives_refine? (hc : c.Closed) (hs : s.Wf c.hierarchy) (refinements : List Refinement) :
    Gives (Checked.refine? c refinements s) (Refinement.refine? refinements c s)
      fun found => ∀ r, found = some r → r.Wf c.hierarchy := by
  unfold Checked.refine? Refinement.refine?
  induction refinements.filter fun r => r.appliesTo c.signatures c.node.kind with
  | nil => exact .pure nofun
  | cons r rest ih =>
      unfold Checked.firstSplit
      apply (hc.gives_split hs r).bind
      intro hfound
      rw [List.findSome?_cons]
      cases hsplit : r.split c s with
      | none => exact ih
      | some stores =>
          apply Gives.pure
          rintro _ ⟨⟩
          obtain ⟨hthen, helse⟩ := hfound stores hsplit
          exact ⟨hthen, helse⟩

end Closed

end TestContext

namespace UnitAnalysis.Closed

variable {u : UnitAnalysis} {V : NodeValues} {node : Node} {input : TransferResult}

theorem delivers_transferNode (hu : u.Closed)
    (hV : V.Bounded u.checker.hierarchy u.graph.nodeCount) (hnode : Places u.graph node)
    (hinput : input.Wf u.checker.hierarchy) :
    Delivers (Checked.transferNode u V node input) (u.transferNode V node input) fun r =>
      u.checker.hierarchy.Has r.1 ∧ r.2.Wf u.checker.hierarchy := by
  have hoperands : Delivers (node.kind.operands.forM fun id => discard (Checked.operand V node id))
      (node.kind.operands.forM fun id => discard (operand V node id)) fun _ => True :=
    .forM fun id hid => (hV.operand (hnode.operands id hid)).map fun _ _ => trivial
  have hevaluated : Delivers
      (Checked.access (Checked.collapse u.checker.hierarchy input) >>= fun s =>
        Checked.evaluate u V node s >>= fun r =>
          Checked.access (Checked.name u.checker.hierarchy r.1) >>= fun _ =>
            Checked.access (Checked.refine? ⟨node, u.checker.hierarchy, u.checker.signatures, V,
              u.keys⟩ (Refinement.enabled u.checker.refinesEquality) r.2) >>= fun refined =>
                pure (r.1, refined.getD (.regular r.2)))
      (u.evaluate V node (input.collapse u.checker.hierarchy) >>= fun r =>
        pure (r.1, (Refinement.refine? (Refinement.enabled u.checker.refinesEquality) ⟨node,
          u.checker.hierarchy, u.checker.signatures, V, u.keys⟩ r.2).getD (.regular r.2)))
      fun r => u.checker.hierarchy.Has r.1 ∧ r.2.Wf u.checker.hierarchy := by
    have hcontext : TestContext.Closed
        ⟨node, u.checker.hierarchy, u.checker.signatures, V, u.keys⟩ :=
      ⟨hu.hierarchy, hV.has, hu.sound.within⟩
    apply (hu.hierarchy.gives_collapse hinput).access
    intro hs
    apply (hu.delivers_evaluate hV hnode hs).bind
    rintro ⟨value, s⟩ ⟨hvalue, hs⟩
    apply (Hierarchy.Closed.gives_name hvalue).access
    intro _
    apply (hcontext.gives_refine? hs _).access
    intro hrefined
    refine .ok ⟨hvalue, ?_⟩
    dsimp only
    cases hfound : Refinement.refine? (Refinement.enabled u.checker.refinesEquality)
      ⟨node, u.checker.hierarchy, u.checker.signatures, V, u.keys⟩ s with
    | none => exact TransferResult.wf_regular hs
    | some r => exact hrefined r hfound
  unfold Checked.transferNode UnitAnalysis.transferNode
  apply hoperands.bind
  rintro _ -
  cases hkind : node.kind with
  | unary op id =>
      cases op with
      | not =>
          have hid : id < u.graph.nodeCount :=
            hnode.operands id (by rw [hkind]; exact List.mem_singleton_self id)
          apply (hV.operand hid).bind
          intro value hvalue
          exact .ok ⟨hvalue, hinput.swap⟩
      | neg => exact hevaluated
  | _ => exact hevaluated

/-- A run whose qualifiers are those of the hierarchy, and which asks for blocks of the graph. -/
structure Along (u : UnitAnalysis) (run : BlockRun) : Prop where
  values : run.values.Bounded u.checker.hierarchy u.graph.nodeCount
  current : run.current.Wf u.checker.hierarchy
  revisit : ∀ b ∈ run.revisit, b < u.graph.size

theorem gives_recordValue (hu : u.Closed) {run : BlockRun} (hrun : Along u run) {id : NodeId}
    (hid : id < u.graph.nodeCount) {value : Qualifier}
    (hvalue : u.checker.hierarchy.Has value) :
    Gives (Checked.recordValue u id value run) (u.recordValue id value run) (Along u) := by
  have hsize : id < run.values.size := hrun.values.size ▸ hid
  have hjoined : Gives
      (Checked.joinOnto u.checker.hierarchy (run.values.getD id none) value)
      (u.checker.hierarchy.joinOnto (run.values.getD id none) value) u.checker.hierarchy.Has := by
    cases hold : run.values.getD id none with
    | none => exact .pure hvalue
    | some old => exact hu.hierarchy.gives_join (hrun.values.has hold) hvalue
  unfold Checked.recordValue
  rw [recordValue_eq]
  apply (gives_getD hsize none).bind
  intro _
  apply hjoined.bind
  intro hnew
  by_cases hsame : run.values.getD id none =
      some (u.checker.hierarchy.joinOnto (run.values.getD id none) value)
  · rw [if_pos hsame, if_pos hsame]
    exact .pure hrun
  · rw [if_neg hsame, if_neg hsame, write_eq hsize]
    apply (gives_getD (hu.consumers ▸ hid) []).bind
    intro _
    refine .pure ⟨hrun.values.set hnew, hrun.current, fun b hb => ?_⟩
    rcases List.mem_append.mp hb with hb | hb
    · exact hrun.revisit b hb
    · exact hu.readers id b (List.mem_of_mem_filter hb)

theorem gives_runNodes (hu : u.Closed) {ids : List NodeId}
    (hids : ∀ id ∈ ids, id < u.graph.nodeCount) {run : BlockRun} (hrun : Along u run) :
    Gives (Checked.runNodes u ids run) (u.runNodes ids run) fun r => Along u r.1 := by
  induction ids generalizing run with
  | nil => exact .pure hrun
  | cons id rest ih =>
      rw [List.forall_mem_cons] at hids
      obtain ⟨node, hnode⟩ : ∃ node, u.graph.nodes[id]? = some node :=
        ⟨_, Array.getElem?_eq_getElem hids.1⟩
      have hplaces : Places u.graph node := hu.graph.places hnode
      unfold Checked.runNodes runNodes FlowGraph.node?
      rw [hnode]
      have htransfer := hu.delivers_transferNode hrun.values hplaces hrun.current
      dsimp only [Option.bind_eq_bind, Option.bind_some]
      rw [htransfer.eq]
      cases hr : u.transferNode run.values node run.current with
      | error e => exact .pure hrun
      | ok r =>
          obtain ⟨hvalue, hresult⟩ := htransfer.holds r hr
          apply (hu.gives_recordValue hrun hids.1 hvalue).bind
          intro hrecorded
          exact ih hids.2 ⟨hrecorded.values, hresult, hrecorded.revisit⟩

theorem gives_runBlock (hu : u.Closed) {block : Block}
    (hblock : ∀ id ∈ block.nodes, id < u.graph.nodeCount)
    (hV : V.Bounded u.checker.hierarchy u.graph.nodeCount)
    (hinput : input.Wf u.checker.hierarchy) :
    Gives (Checked.runBlock u block V input) (u.runBlock block V input) fun r => Along u r.1 :=
  hu.gives_runNodes hblock ⟨hV, hinput, by simp⟩

end UnitAnalysis.Closed

end FlowTyping
