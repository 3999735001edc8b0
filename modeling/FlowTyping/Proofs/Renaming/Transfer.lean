import FlowTyping.Proofs.Flow.Parallel
import FlowTyping.Proofs.Renaming.Building
import FlowTyping.Proofs.Renaming.Stores

/-!
The transfer of qualifiers through a graph with its variables renamed. A node gets the
same qualifier, and the stores after it say the same up to names.
-/

namespace FlowTyping

section

variable {ρ : Equiv.Perm String} {before before' : Array (Option FlowKey)}

/-- The keys of the nodes are those of the other list with their variables renamed. -/
def KeysRenamed (ρ : Equiv.Perm String) (before before' : Array (Option FlowKey)) : Prop :=
  ∀ id, before'.getD id none = (before.getD id none).map (FlowKey.rename ρ)

theorem KeysRenamed.refinable (h : KeysRenamed ρ before before') (id : NodeId) :
    (before'.getD id none).filter FlowKey.isRefinable =
      ((before.getD id none).filter FlowKey.isRefinable).map (FlowKey.rename ρ) := by
  rw [h id]
  cases before.getD id none with
  | none => rfl
  | some key =>
      rw [Option.map_some, Option.filter_some, Option.filter_some, FlowKey.isRefinable_rename]
      split <;> rfl

theorem KeysRenamed.arguments (h : KeysRenamed ρ before before') (args : List NodeId) :
    (args.mapM fun id => before'.getD id none) =
      (args.mapM fun id => before.getD id none).map (FlowKey.renameList ρ) := by
  induction args with
  | nil => rfl
  | cons id rest ih =>
      rw [List.mapM_cons, List.mapM_cons, ih, h id]
      cases before.getD id none with
      | none => rfl
      | some key =>
          cases rest.mapM fun id => before.getD id none with
          | none => rfl
          | some keys => rfl

namespace Checker

variable (c : Checker)

theorem nodeKey_rename (h : KeysRenamed ρ before before') (kind : NodeKind) :
    c.nodeKey before' (kind.rename ρ) = (c.nodeKey before kind).map (FlowKey.rename ρ) := by
  cases kind with
  | fieldRead receiver field =>
      change ((before'.getD receiver none).filter FlowKey.isRefinable).map _ =
        (((before.getD receiver none).filter FlowKey.isRefinable).map _).map _
      rw [h.refinable]
      cases (before.getD receiver none).filter FlowKey.isRefinable <;> rfl
  | call receiver method args =>
      unfold nodeKey NodeKind.rename
      dsimp only
      split
      · rw [h.arguments]
        cases receiver with
        | none => cases args.mapM fun id => before.getD id none <;> rfl
        | some id =>
            dsimp only
            rw [h.refinable]
            cases (before.getD id none).filter FlowKey.isRefinable with
            | none => rfl
            | some key => cases args.mapM fun id => before.getD id none <;> rfl
      · rfl
  | assign target value => cases target <;> rfl
  | _ => rfl

theorem nodeKeys_rename (g : FlowGraph) :
    KeysRenamed ρ (c.nodeKeys g) (c.nodeKeys (g.rename ρ)) := by
  have hfold : ∀ (nodes : List Node) (before before' : Array (Option FlowKey)),
      before'.size = before.size → KeysRenamed ρ before before' →
      KeysRenamed ρ (nodes.foldl (fun keys node => keys.push (c.nodeKey keys node.kind)) before)
        ((nodes.map (Node.rename ρ)).foldl
          (fun keys node => keys.push (c.nodeKey keys node.kind)) before') := by
    intro nodes
    induction nodes with
    | nil => exact fun _ _ _ h => h
    | cons node rest ih =>
        intro before before' hsize h
        apply ih
        · rw [Array.size_push, Array.size_push, hsize]
        · intro id
          have hid := h id
          simp only [Array.getD_eq_getD_getElem?, Array.getElem?_push] at hid ⊢
          rw [hsize]
          split
          · exact c.nodeKey_rename h node.kind
          · exact hid
  unfold nodeKeys
  rw [← Array.foldl_toList, ← Array.foldl_toList]
  have hnodes : (g.rename ρ).nodes.toList = g.nodes.toList.map (Node.rename ρ) := by
    simp [FlowGraph.rename]
  rw [hnodes]
  exact hfold _ #[] #[] rfl fun _ => rfl

end Checker

theorem FlowGraph.node?_rename (ρ : String → String) (g : FlowGraph) (id : NodeId) :
    (g.rename ρ).node? id = (g.node? id).map (Node.rename ρ) :=
  Array.getElem?_map

theorem FlowGraph.consumersOf_rename (ρ : String → String) (g : FlowGraph) :
    (g.rename ρ).consumersOf = g.consumersOf := by
  funext id
  have hhome : ((g.rename ρ).node? id).map Node.block = (g.node? id).map Node.block := by
    rw [node?_rename]
    cases g.node? id <;> rfl
  unfold consumersOf
  dsimp only
  rw [hhome]
  simp [FlowGraph.rename, List.filterMap_map, Node.rename]

end

/-- Two analyses read the same but for the names of variables. -/
structure UnitAnalysis.Renamed (ρ : Equiv.Perm String) (u u' : UnitAnalysis) : Prop where
  checker : u'.checker = u.checker
  graph : u'.graph = u.graph.rename ρ
  initial : u.initial.Renamed ρ u'.initial
  keys : KeysRenamed ρ u.keys u'.keys
  consumers : u'.consumers = u.consumers

theorem UnitAnalysis.new_renamed {ρ : Equiv.Perm String} (c : Checker) (g : FlowGraph)
    {s s' : Store} (hs : s.Renamed ρ s') :
    (UnitAnalysis.new c g s).Renamed ρ (.new c (g.rename ρ) s') where
  checker := rfl
  graph := rfl
  initial := hs
  keys := c.nodeKeys_rename g
  consumers := by
    have hsize : (g.rename ρ).nodeCount = g.nodeCount := Array.size_map
    simp only [UnitAnalysis.new, hsize, FlowGraph.consumersOf_rename]

namespace UnitAnalysis.Renamed

variable {ρ : Equiv.Perm String} {u u' : UnitAnalysis} {s s' : Store}

theorem key? (hu : u.Renamed ρ u') (id : NodeId) :
    u'.key? id = (u.key? id).map (FlowKey.rename ρ) :=
  hu.keys.refinable id

theorem flowValue (hu : u.Renamed ρ u') (hs : s.Renamed ρ s') (key : Option FlowKey)
    (declared : Qualifier) :
    u'.flowValue s' (key.map (FlowKey.rename ρ)) declared = u.flowValue s key declared := by
  unfold UnitAnalysis.flowValue
  rw [hu.checker]
  cases key with
  | none => rfl
  | some key =>
      rw [Option.map_some, Option.bind_some, Option.bind_some, hs.get?]

theorem clamp (hu : u.Renamed ρ u') (source bound : Qualifier) :
    u'.clamp source bound = u.clamp source bound := by
  unfold UnitAnalysis.clamp
  rw [hu.checker]

theorem joinOperands (hu : u.Renamed ρ u') (values : NodeValues) (node : Node) (a b : NodeId) :
    u'.joinOperands values (node.rename ρ) a b = u.joinOperands values node a b := by
  unfold UnitAnalysis.joinOperands
  rw [hu.checker]
  rfl

theorem ensure (hu : u.Renamed ρ u') (hs : s.Renamed ρ s') (receiver : Option NodeId)
    (args : List NodeId) (p : Postcondition Qualifier) :
    (u.ensure receiver args s p).Renamed ρ (u'.ensure receiver args s' p) := by
  unfold UnitAnalysis.ensure
  cases p.target.operand? receiver args with
  | none => exact hs
  | some id =>
      rw [Option.bind_some, Option.bind_some, hu.key?, hu.checker]
      cases u.key? id with
      | none => exact hs
      | some key => exact hs.refine key _

theorem ensures (hu : u.Renamed ρ u') (hs : s.Renamed ρ s') (receiver : Option NodeId)
    (args : List NodeId) (posts : List (Postcondition Qualifier)) :
    (posts.foldl (u.ensure receiver args) s).Renamed ρ
      (posts.foldl (u'.ensure receiver args) s') := by
  induction posts generalizing s s' with
  | nil => exact hs
  | cons p rest ih => exact ih (hu.ensure hs receiver args p)

theorem evaluate (hu : u.Renamed ρ u') (hs : s.Renamed ρ s') (values : NodeValues)
    (node : Node) :
    Alike (fun r r' => r.1 = r'.1 ∧ r.2.Renamed ρ r'.2) (u.evaluate values node s)
      (u'.evaluate values (node.rename ρ) s') := by
  have hkeep (m : Except AnalysisError Qualifier) :
      Alike (fun r r' => r.1 = r'.1 ∧ r.2.Renamed ρ r'.2) (m.map (·, s)) (m.map (·, s')) :=
    (Alike.same m).map fun _ _ hq => ⟨hq, hs⟩
  obtain ⟨id, block, kind⟩ := node
  unfold UnitAnalysis.evaluate
  rw [hu.checker]
  cases kind with
  | literal value => exact .ok ⟨rfl, hs⟩
  | localRead var =>
      apply (Alike.same (u.checker.localBound ⟨id, block, .localRead var⟩ var)).bind
      rintro bound _ rfl
      exact .ok ⟨(hu.flowValue hs (some (.local var.name)) bound).symm, hs⟩
  | this =>
      exact .ok ⟨(hs.valueOrTop .this).symm, hs⟩
  | fieldRead receiver field =>
      refine .ok ⟨?_, hs⟩
      dsimp only [Node.rename]
      rw [hu.key?, hu.flowValue hs]
  | call receiver method args =>
      have hheap : (if u.checker.signatures.isPure method then s else s.invalidateHeap).Renamed ρ
          (if u.checker.signatures.isPure method then s' else s'.invalidateHeap) := by
        split
        · exact hs
        · exact hs.invalidateHeap
      refine .ok ⟨?_, hu.ensures hheap receiver args _⟩
      dsimp only [Node.rename]
      rw [hu.key?, hu.flowValue hheap]
  | new className args => exact .ok ⟨rfl, hs.invalidateHeap⟩
  | binary op lhs rhs =>
      dsimp only [Node.rename, NodeKind.rename]
      cases u.checker.implicit.find? (.element (syntaxOf op)) with
      | some q => exact .ok ⟨rfl, hs⟩
      | none =>
          dsimp only
          split
          · exact .ok ⟨rfl, hs⟩
          · rw [← hu.joinOperands values ⟨id, block, .binary op lhs rhs⟩ lhs rhs]
            exact hkeep _
  | unary op operand => exact hkeep _
  | shortCircuit op lhs rhs =>
      dsimp only
      rw [← hu.joinOperands values ⟨id, block, .shortCircuit op lhs rhs⟩ lhs rhs]
      exact hkeep _
  | ternaryMerge thenValue elseValue =>
      dsimp only
      rw [← hu.joinOperands values ⟨id, block, .ternaryMerge thenValue elseValue⟩ thenValue
        elseValue]
      exact hkeep _
  | cast qualifier operand => exact hkeep _
  | localDecl var =>
      apply (Alike.same (u.checker.localBound ⟨id, block, .localDecl var⟩ var)).map
      rintro bound _ rfl
      exact ⟨rfl, hs.invalidateLocal var.name⟩
  | assign target value =>
      cases target with
      | «local» var =>
          apply (Alike.same (operand values ⟨id, block, .assign (.local var) value⟩ value)).bind
          rintro source _ rfl
          apply (Alike.same
            (u.checker.localBound ⟨id, block, .assign (.local var) value⟩ var)).bind
          rintro bound _ rfl
          rw [hu.clamp]
          exact .ok ⟨rfl, (hs.invalidateLocal var.name).insert (.local var.name) _⟩
      | field receiver field =>
          apply (Alike.same
            (operand values ⟨id, block, .assign (.field receiver field) value⟩ value)).bind
          rintro source _ rfl
          rw [hu.clamp, hu.key?]
          refine .ok ⟨rfl, ?_⟩
          cases u.key? receiver with
          | none => exact hs.invalidateField field
          | some key => exact (hs.invalidateField field).insert (.field key field) _
  | returnValue value =>
      cases value with
      | none => exact .ok ⟨rfl, hs⟩
      | some operand => exact hkeep _
  | throw exception value =>
      cases value with
      | none => exact .ok ⟨rfl, hs⟩
      | some operand => exact hkeep _
  | assertFailure => exact .ok ⟨rfl, hs⟩

end UnitAnalysis.Renamed

namespace TestContext

variable {ρ : Equiv.Perm String} {c c' : TestContext}

/-- Two tests are of the same node, its variables renamed. -/
structure Renamed (ρ : Equiv.Perm String) (c c' : TestContext) : Prop where
  node : c'.node = c.node.rename ρ
  hierarchy : c'.hierarchy = c.hierarchy
  signatures : c'.signatures = c.signatures
  values : c'.values = c.values
  keys : KeysRenamed ρ c.keys c'.keys

theorem Renamed.key? (hc : c.Renamed ρ c') (id : NodeId) :
    c'.key? id = (c.key? id).map (FlowKey.rename ρ) :=
  hc.keys.refinable id

theorem Renamed.parallel (hc : c.Renamed ρ c') :
    c.Parallel (Store.Renamed ρ) (FlowKey.rename ρ) c' where
  hierarchy := hc.hierarchy
  values := hc.values
  key? := hc.key?
  refine key q hs := hs.refine key q

end TestContext

namespace Refinement

variable {ρ : Equiv.Perm String} {c c' : TestContext} {s s' : Store}

theorem refine?_renamed (refinements : List Refinement) (hc : c.Renamed ρ c')
    (hs : s.Renamed ρ s') :
    Option.Rel (TransferResult.Renamed ρ) (refine? refinements c s)
      (refine? refinements c' s') := by
  have happlies (r : Refinement) :
      r.appliesTo c'.signatures c'.node.kind = r.appliesTo c.signatures c.node.kind := by
    rw [hc.signatures, hc.node, Node.rename]
    dsimp only
    generalize c.node.kind = kind
    cases r with
    | equality =>
        cases kind with
        | assign target value => cases target <;> rfl
        | _ => rfl
    | postcondition =>
        cases kind with
        | assign target value => cases target <;> rfl
        | _ => rfl
  have hsplit (r : Refinement) : Splits (Store.Renamed ρ) (r.split c s) (r.split c' s') := by
    unfold split
    rw [hc.signatures, hc.node, Node.rename]
    dsimp only
    generalize c.node.kind = kind
    cases r with
    | equality =>
        cases kind with
        | binary op lhs rhs => exact splitEquality_parallel hc.parallel hs op lhs rhs
        | assign target value => cases target <;> exact .none
        | _ => exact .none
    | postcondition =>
        cases kind with
        | call receiver method args =>
            dsimp only [NodeKind.rename]
            cases c.signatures.method? method with
            | none => exact .none
            | some signature =>
                exact splitCall_parallel hc.parallel hs receiver args signature.ensuresIf
        | assign target value => cases target <;> exact .none
        | _ => exact .none
  exact refine?_parallel refinements .split happlies hsplit

end Refinement

namespace UnitAnalysis.Renamed

variable {ρ : Equiv.Perm String} {u u' : UnitAnalysis} {r r' : TransferResult}

theorem transferNode (hu : u.Renamed ρ u') (values : NodeValues) (node : Node)
    (hr : r.Renamed ρ r') :
    Alike (fun x y => x.1 = y.1 ∧ x.2.Renamed ρ y.2) (u.transferNode values node r)
      (u'.transferNode values (node.rename ρ) r') := by
  have hnot (id : NodeId) : (node.rename ρ).kind = .unary .not id ↔ node.kind = .unary .not id := by
    change node.kind.rename ρ = .unary .not id ↔ _
    generalize node.kind = kind
    cases kind with
    | assign target value => cases target <;> simp [NodeKind.rename]
    | _ => simp [NodeKind.rename]
  exact transferNode_parallel hu.checker (NodeKind.rename_operands ρ node.kind) rfl hnot hr.swap
    .regular (hu.evaluate hr.collapse values node) fun hs =>
      Refinement.refine?_renamed _ ⟨rfl, rfl, rfl, rfl, hu.keys⟩ hs

end UnitAnalysis.Renamed

end FlowTyping
