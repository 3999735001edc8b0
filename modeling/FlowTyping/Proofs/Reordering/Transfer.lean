import FlowTyping.Flow.Check
import FlowTyping.Proofs.Reordering.Stores

/-!
The transfer of nodes, and their check, under checkers that differ in the numbers of their
qualifiers.
-/

namespace FlowTyping

variable {π : Qualifier → Qualifier}

namespace Checker.Renumbers

variable {c c' : Checker}

theorem find? (hc : c.Renumbers c' π) (s : Subject) :
    c'.implicit.find? s = (c.implicit.find? s).map π := by
  rw [hc.implicit]
  unfold ImplicitRules.find?
  change Option.map _ ((c.implicit.rules.map _).find? _) = _
  rw [List.find?_map, Option.map_map, Option.map_map]
  rfl

theorem implicit_evaluate (hc : c.Renumbers c' π) (s : Subject) :
    c'.implicit.evaluate s = π (c.implicit.evaluate s) := by
  unfold ImplicitRules.evaluate
  rw [hc.find?, hc.implicit]
  cases c.implicit.find? s <;> rfl

theorem element (hc : c.Renumbers c' π) (kind : SyntaxKind) :
    c'.element kind = π (c.element kind) := hc.implicit_evaluate _

theorem resolveAt (hc : c.Renumbers c' π) (node : Node) (name : String) :
    c'.resolveAt node name = (c.resolveAt node name).map π := by
  unfold Checker.resolveAt
  rw [hc.hierarchy.lookup]
  cases c.hierarchy.lookup? name <;> rfl

theorem localBound (hc : c.Renumbers c' π) (node : Node) (var : LocalVar) :
    c'.localBound node var = (c.localBound node var).map π := by
  unfold Checker.localBound
  cases var.declared with
  | some name => exact hc.resolveAt node name
  | none =>
      cases var.origin with
      | parameter => exact congrArg Except.ok (hc.element _)
      | «local» => exact congrArg Except.ok (hc.element _)

theorem fieldBound (hc : c.Renumbers c' π) (field : String) :
    c'.fieldBound field = π (c.fieldBound field) := by
  unfold Checker.fieldBound
  rw [hc.field?, hc.element]
  cases c.signatures.field? field <;> rfl

theorem callResult (hc : c.Renumbers c' π) (method : String) :
    c'.callResult method = π (c.callResult method) := by
  unfold Checker.callResult
  rw [hc.method?, hc.element]
  cases c.signatures.method? method with
  | none => rfl
  | some s =>
      change (s.returns.map π).getD _ = π (s.returns.getD _)
      cases s.returns <;> rfl

theorem isPure (hc : c.Renumbers c' π) (method : String) :
    c'.signatures.isPure method = c.signatures.isPure method := by
  unfold SignatureTable.isPure
  rw [hc.method?]
  cases c.signatures.method? method <;> rfl

theorem nodeKeys (hc : c.Renumbers c' π) (g : FlowGraph) : c'.nodeKeys g = c.nodeKeys g := by
  have hkey : c'.nodeKey = c.nodeKey := by
    funext before kind
    unfold Checker.nodeKey
    cases kind with
    | call receiver method args => simp only [hc.isPure]
    | _ => rfl
  unfold Checker.nodeKeys
  rw [hkey]

end Checker.Renumbers

/-- Two analyses read the same but for the numbers of qualifiers. -/
structure UnitAnalysis.Renumbers (u u' : UnitAnalysis) (π : Qualifier → Qualifier) : Prop where
  checker : u.checker.Renumbers u'.checker π
  graph : u'.graph = u.graph
  initial : u'.initial = u.initial.renumber π
  keys : u'.keys = u.keys
  consumers : u'.consumers = u.consumers

namespace UnitAnalysis

theorem operand_renumber (values : NodeValues) (node : Node) (id : NodeId) :
    operand (renumberValues π values) node id = (operand values node id).map π := by
  unfold operand
  rw [getD_renumberValues]
  cases values.getD id none <;> rfl

namespace Renumbers

variable {u u' : UnitAnalysis} {s : Store}

theorem new {c c' : Checker} (hc : c.Renumbers c' π) (g : FlowGraph) (s : Store) :
    (UnitAnalysis.new c g s).Renumbers (.new c' g (s.renumber π)) π where
  checker := hc
  graph := rfl
  initial := rfl
  keys := hc.nodeKeys g
  consumers := rfl

theorem key? (hu : u.Renumbers u' π) (id : NodeId) : u'.key? id = u.key? id := by
  unfold UnitAnalysis.key?
  rw [hu.keys]

theorem flowValue (hu : u.Renumbers u' π) (key : Option FlowKey) (declared : Qualifier) :
    u'.flowValue (s.renumber π) key (π declared) = π (u.flowValue s key declared) := by
  unfold UnitAnalysis.flowValue
  cases key with
  | none => rfl
  | some key =>
      rw [Option.bind_some, Option.bind_some, Store.get?_renumber]
      cases s.get? key with
      | none => rfl
      | some flow => exact hu.checker.hierarchy.meet flow declared

theorem clamp (hu : u.Renumbers u' π) (source bound : Qualifier) :
    u'.clamp (π source) (π bound) = π (u.clamp source bound) := by
  unfold UnitAnalysis.clamp
  rw [hu.checker.hierarchy.isSubtype]
  split <;> rfl

theorem ensure (hu : u.Renumbers u' π) (receiver : Option NodeId) (args : List NodeId)
    (p : Postcondition Qualifier) :
    u'.ensure receiver args (s.renumber π) ⟨p.target, π p.qualifier⟩ =
      (u.ensure receiver args s p).renumber π := by
  have hkey : u'.key? = u.key? := funext hu.key?
  unfold UnitAnalysis.ensure
  rw [hkey]
  dsimp only
  cases (p.target.operand? receiver args).bind u.key? with
  | none => rfl
  | some key => exact hu.checker.hierarchy.refine key p.qualifier

theorem ensures (hu : u.Renumbers u' π) (receiver : Option NodeId) (args : List NodeId)
    (posts : List (Postcondition Qualifier)) (s : Store) :
    (posts.map fun p => (⟨p.target, π p.qualifier⟩ : Postcondition Qualifier)).foldl
        (u'.ensure receiver args) (s.renumber π) =
      (posts.foldl (u.ensure receiver args) s).renumber π := by
  induction posts generalizing s with
  | nil => rfl
  | cons p rest ih => rw [List.map_cons, List.foldl_cons, List.foldl_cons, hu.ensure, ih]

theorem joinOperands (hu : u.Renumbers u' π) (values : NodeValues) (node : Node) (a b : NodeId) :
    u'.joinOperands (renumberValues π values) node a b =
      (u.joinOperands values node a b).map π := by
  unfold UnitAnalysis.joinOperands
  rw [operand_renumber, operand_renumber]
  cases operand values node a with
  | error e => rfl
  | ok left =>
      cases operand values node b with
      | error e => rfl
      | ok right => exact congrArg Except.ok (hu.checker.hierarchy.join left right)

/-- The qualifier and the store that a node gives, renumbered. -/
abbrev outcome (π : Qualifier → Qualifier) : Qualifier × Store → Qualifier × Store :=
  Prod.map π (Store.renumber π)

theorem evaluate (hu : u.Renumbers u' π) (values : NodeValues) (node : Node) (s : Store) :
    u'.evaluate (renumberValues π values) node (s.renumber π) =
      (u.evaluate values node s).map (outcome π) := by
  have hkeep {m m' : Except AnalysisError Qualifier} (hm : m' = m.map π) (s : Store) :
      m'.map (·, s.renumber π) = (m.map (·, s)).map (outcome π) := by
    rw [hm]
    cases m <;> rfl
  have hvalue {q q' : Qualifier} (hq : q' = π q) : (.ok (q', s.renumber π) :
      Except AnalysisError (Qualifier × Store)) = (Except.ok (q, s)).map (outcome π) := by
    rw [hq]
    rfl
  have hlocal (name : String) :
      (s.renumber π).invalidateLocal name = (s.invalidateLocal name).renumber π :=
    Store.retain_renumber _
  have hfield (name : String) :
      (s.renumber π).invalidateField name = (s.invalidateField name).renumber π :=
    Store.retain_renumber _
  have hheap : (s.renumber π).invalidateHeap = s.invalidateHeap.renumber π :=
    Store.retain_renumber _
  obtain ⟨id, block, kind⟩ := node
  unfold UnitAnalysis.evaluate
  cases kind with
  | literal value => exact hvalue (hu.checker.implicit_evaluate _)
  | localRead var =>
      dsimp only
      rw [hu.checker.localBound]
      cases u.checker.localBound ⟨id, block, .localRead var⟩ var with
      | error e => rfl
      | ok bound =>
          exact hvalue (hu.flowValue (some (.local var.name)) bound)
  | this => exact hvalue (Store.valueOrTop_renumber .this)
  | fieldRead receiver field =>
      dsimp only
      rw [hu.key?, hu.checker.fieldBound, hu.flowValue]
      rfl
  | call receiver method args =>
      have hposts : ((u'.checker.signatures.method? method).map MethodSignature.ensures).getD [] =
          (((u.checker.signatures.method? method).map MethodSignature.ensures).getD []).map
            fun p => ⟨p.target, π p.qualifier⟩ := by
        rw [hu.checker.method?]
        cases u.checker.signatures.method? method <;> rfl
      have hcalled : (if u.checker.signatures.isPure method then s.renumber π
            else (s.renumber π).invalidateHeap) =
          (if u.checker.signatures.isPure method then s else s.invalidateHeap).renumber π := by
        split
        · rfl
        · exact hheap
      dsimp only
      rw [hu.checker.isPure, hcalled, hu.key?, hu.checker.callResult, hu.flowValue, hposts,
        hu.ensures]
      rfl
  | new className args =>
      dsimp only
      rw [hheap, hu.checker.element]
      rfl
  | binary op lhs rhs =>
      dsimp only
      rw [hu.checker.find?]
      cases u.checker.implicit.find? (.element (syntaxOf op)) with
      | some q => rfl
      | none =>
          dsimp only [Option.map_none]
          split
          · rw [hu.checker.hierarchy.top]
            rfl
          · exact hkeep (hu.joinOperands values _ lhs rhs) s
  | unary op operand => exact hkeep (operand_renumber values _ operand) s
  | shortCircuit op lhs rhs => exact hkeep (hu.joinOperands values _ lhs rhs) s
  | ternaryMerge thenValue elseValue => exact hkeep (hu.joinOperands values _ thenValue elseValue) s
  | cast qualifier operand => exact hkeep (hu.checker.resolveAt _ qualifier) s
  | localDecl var =>
      dsimp only
      rw [hlocal]
      exact hkeep (hu.checker.localBound _ var) _
  | assign target value =>
      cases target with
      | «local» var =>
          dsimp only
          rw [operand_renumber, hu.checker.localBound, hlocal]
          cases operand values ⟨id, block, .assign (.local var) value⟩ value with
          | error e => rfl
          | ok source =>
              cases u.checker.localBound ⟨id, block, .assign (.local var) value⟩ var with
              | error e => rfl
              | ok bound =>
                  change Except.ok (_, Store.insert _ _ _) = _
                  rw [hu.clamp, Store.insert_renumber]
                  rfl
      | field receiver field =>
          dsimp only
          rw [operand_renumber, hu.checker.fieldBound, hfield, hu.key?]
          cases operand values ⟨id, block, .assign (.field receiver field) value⟩ value with
          | error e => rfl
          | ok source =>
              change Except.ok (_, _) = _
              rw [hu.clamp]
              cases u.key? receiver with
              | none => rfl
              | some key =>
                  dsimp only
                  rw [Store.insert_renumber]
                  rfl
  | returnValue value =>
      cases value with
      | none => exact hvalue hu.checker.hierarchy.top
      | some operand => exact hkeep (operand_renumber values _ operand) s
  | throw exception value =>
      cases value with
      | none => exact hvalue hu.checker.hierarchy.top
      | some operand => exact hkeep (operand_renumber values _ operand) s
  | assertFailure => exact hvalue hu.checker.hierarchy.top

theorem transferNode (hu : u.Renumbers u' π) (values : NodeValues) (node : Node)
    (input : TransferResult) :
    u'.transferNode (renumberValues π values) node (input.renumber π) =
      (u.transferNode values node input).map (Prod.map π (TransferResult.renumber π)) := by
  have hdiscard (ids : List NodeId) :
      (ids.forM fun id => discard (operand (renumberValues π values) node id)) =
        ids.forM fun id => discard (operand values node id) := by
    congr 1
    funext id
    rw [operand_renumber]
    cases operand values node id <;> rfl
  have hevaluated :
      (u'.evaluate (renumberValues π values) node ((input.renumber π).collapse u'.checker.hierarchy)
          >>= fun r => pure (r.1, (Refinement.refine?
            (Refinement.enabled u'.checker.refinesEquality) ⟨node, u'.checker.hierarchy,
              u'.checker.signatures, renumberValues π values, u'.keys⟩ r.2).getD (.regular r.2))) =
        (u.evaluate values node (input.collapse u.checker.hierarchy) >>= fun r =>
          pure (r.1, (Refinement.refine? (Refinement.enabled u.checker.refinesEquality) ⟨node,
            u.checker.hierarchy, u.checker.signatures, values, u.keys⟩ r.2).getD
              (.regular r.2))).map (Prod.map π (TransferResult.renumber π)) := by
    have hcontext : TestContext.Renumbers
        ⟨node, u.checker.hierarchy, u.checker.signatures, values, u.keys⟩
        ⟨node, u'.checker.hierarchy, u'.checker.signatures, renumberValues π values, u'.keys⟩ π :=
      ⟨rfl, hu.checker.hierarchy, hu.checker.method?, rfl, hu.keys⟩
    rw [hu.checker.hierarchy.collapse, hu.evaluate, hu.checker.refinesEquality]
    cases u.evaluate values node (input.collapse u.checker.hierarchy) with
    | error e => rfl
    | ok r =>
        obtain ⟨value, s⟩ := r
        change Except.ok (π value, _) = Except.ok (π value, _)
        dsimp only [Prod.map_snd]
        rw [hcontext.refine?]
        cases Refinement.refine? (Refinement.enabled u.checker.refinesEquality)
          ⟨node, u.checker.hierarchy, u.checker.signatures, values, u.keys⟩ s <;> rfl
  unfold UnitAnalysis.transferNode
  dsimp only
  rw [hdiscard]
  cases node.kind.operands.forM fun id => discard (operand values node id) with
  | error e => rfl
  | ok _ =>
      cases node.kind with
      | unary op id =>
          cases op with
          | not =>
              dsimp only
              rw [operand_renumber, TransferResult.swap_renumber]
              cases operand values node id <;> rfl
          | neg => exact hevaluated
      | _ => exact hevaluated

end Renumbers

end UnitAnalysis

end FlowTyping
