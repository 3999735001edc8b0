import FlowTyping.Flow.Analysis
import FlowTyping.Proofs.Flow.Nodes
import FlowTyping.Proofs.Flow.Simulation

/-!
Two analyses side by side. Tests split related stores alike when narrowing a key keeps them
related, and blocks are transferred alike when their nodes are.
-/

namespace FlowTyping

/-- Two tests read the same, and keys that correspond. Stores stay related when corresponding keys
are narrowed. -/
structure TestContext.Parallel (R : Store → Store → Prop) (κ : FlowKey → FlowKey)
    (c c' : TestContext) : Prop where
  hierarchy : c'.hierarchy = c.hierarchy
  values : c'.values = c.values
  key? (id : NodeId) : c'.key? id = (c.key? id).map κ
  refine {s s' : Store} (key : FlowKey) (q : Qualifier) : R s s' →
    R (s.refine c.hierarchy key q) (s'.refine c.hierarchy (κ key) q)

namespace Refinement

variable {R : Store → Store → Prop} {T : TransferResult → TransferResult → Prop}
  {κ : FlowKey → FlowKey} {c c' : TestContext} {s s' : Store}

/-- Two splits are both missing, or their stores are related outcome by outcome. -/
abbrev Splits (R : Store → Store → Prop) :
    Option (Store × Store) → Option (Store × Store) → Prop :=
  Option.Rel fun x y => R x.1 y.1 ∧ R x.2 y.2

theorem splitEquality_parallel (hc : c.Parallel R κ c') (hs : R s s') (op : BinOp)
    (lhs rhs : NodeId) :
    Splits R (splitEquality c s op lhs rhs) (splitEquality c' s' op lhs rhs) := by
  have hkeys : (c'.key? lhs).toList ++ (c'.key? rhs).toList =
      ((c.key? lhs).toList ++ (c.key? rhs).toList).map κ := by
    rw [hc.key?, hc.key?]
    cases c.key? lhs <;> cases c.key? rhs <;> rfl
  have hvalue : c'.value = c.value := by
    funext id
    unfold TestContext.value
    rw [hc.values, hc.hierarchy]
  have hequal (q : Qualifier) (keys : List FlowKey) :
      R (keys.foldl (fun s key => s.refine c.hierarchy key q) s)
        ((keys.map κ).foldl (fun s key => s.refine c.hierarchy key q) s') := by
    induction keys generalizing s s' with
    | nil => exact hs
    | cons key rest ih => exact ih (hc.refine key q hs)
  unfold splitEquality
  dsimp only
  rw [hkeys, hvalue, hc.hierarchy, List.isEmpty_map]
  split
  · exact .none
  · split
    · exact .some ⟨hequal _ _, hs⟩
    · exact .some ⟨hs, hequal _ _⟩

theorem refineOutcome_parallel (hc : c.Parallel R κ c') (receiver : Option NodeId)
    (args : List NodeId) {stores stores' : Store × Store} (h₁ : R stores.1 stores'.1)
    (h₂ : R stores.2 stores'.2) (p : ConditionalPostcondition Qualifier) :
    Splits R (refineOutcome c receiver args stores p)
      (refineOutcome c' receiver args stores' p) := by
  unfold refineOutcome
  cases p.target.operand? receiver args with
  | none => exact .none
  | some id =>
      rw [Option.bind_some, Option.bind_some, hc.key?, hc.hierarchy]
      cases c.key? id with
      | none => exact .none
      | some key =>
          apply Option.Rel.some
          dsimp only
          split
          · exact ⟨hc.refine key _ h₁, h₂⟩
          · exact ⟨h₁, hc.refine key _ h₂⟩

theorem splitCall_parallel (hc : c.Parallel R κ c') (hs : R s s') (receiver : Option NodeId)
    (args : List NodeId) (posts : List (ConditionalPostcondition Qualifier)) :
    Splits R (splitCall c s receiver args posts) (splitCall c' s' receiver args posts) := by
  have hfold : ∀ {found found' : Option (Store × Store)}, Splits R found found' →
      Splits R
        (posts.foldl (fun found p =>
          (refineOutcome c receiver args (found.getD (s, s)) p).or found) found)
        (posts.foldl (fun found p =>
          (refineOutcome c' receiver args (found.getD (s', s')) p).or found) found') := by
    induction posts with
    | nil => exact id
    | cons p rest ih =>
        intro found found' hfound
        apply ih
        have hstores : R (found.getD (s, s)).1 (found'.getD (s', s')).1 ∧
            R (found.getD (s, s)).2 (found'.getD (s', s')).2 := by
          cases hfound with
          | none => exact ⟨hs, hs⟩
          | some hstores => exact hstores
        have houtcome := refineOutcome_parallel hc receiver args hstores.1 hstores.2 p
        dsimp only
        generalize refineOutcome c receiver args _ p = x at houtcome
        generalize refineOutcome c' receiver args _ p = x' at houtcome
        cases houtcome with
        | none => exact hfound
        | some hsplit => exact .some hsplit
  exact hfold .none

/-- Refinements that understand the same tests and split them alike give related results. -/
theorem refine?_parallel (refinements : List Refinement)
    (hT : ∀ {t e t' e' : Store}, R t t' → R e e' → T (.split t e) (.split t' e'))
    (happlies : ∀ r : Refinement,
      r.appliesTo c'.signatures c'.node.kind = r.appliesTo c.signatures c.node.kind)
    (hsplit : ∀ r : Refinement, Splits R (r.split c s) (r.split c' s')) :
    Option.Rel T (refine? refinements c s) (refine? refinements c' s') := by
  unfold refine?
  simp only [happlies]
  induction refinements with
  | nil => exact .none
  | cons r rest ih =>
      rw [List.filter_cons]
      split
      · rw [List.findSome?_cons, List.findSome?_cons]
        have hr := hsplit r
        generalize r.split c s = x at hr
        generalize r.split c' s' = x' at hr
        cases hr with
        | none => exact ih
        | some hstores => exact .some (hT hstores.1 hstores.2)
      · exact ih

end Refinement

namespace UnitAnalysis

variable {R : Store → Store → Prop} {T : TransferResult → TransferResult → Prop}
  {u u' : UnitAnalysis} {r r' : TransferResult}

/-- Nodes that read the same operands are transferred alike when they are evaluated alike, and
tests split alike what comes of it. -/
theorem transferNode_parallel {values : NodeValues} {node node' : Node}
    (hchecker : u'.checker = u.checker) (hoperands : node'.kind.operands = node.kind.operands)
    (hoperand : operand values node' = operand values node)
    (hnot : ∀ id, node'.kind = .unary .not id ↔ node.kind = .unary .not id)
    (hswap : T r.swap r'.swap) (hregular : ∀ {s s' : Store}, R s s' → T (.regular s) (.regular s'))
    (hevaluate : Alike (fun x y => x.1 = y.1 ∧ R x.2 y.2)
      (u.evaluate values node (r.collapse u.checker.hierarchy))
      (u'.evaluate values node' (r'.collapse u.checker.hierarchy)))
    (hrefine : ∀ {s s' : Store}, R s s' → Option.Rel T
      (Refinement.refine? (Refinement.enabled u.checker.refinesEquality)
        ⟨node, u.checker.hierarchy, u.checker.signatures, values, u.keys⟩ s)
      (Refinement.refine? (Refinement.enabled u.checker.refinesEquality)
        ⟨node', u.checker.hierarchy, u.checker.signatures, values, u'.keys⟩ s')) :
    Alike (fun x y => x.1 = y.1 ∧ T x.2 y.2) (u.transferNode values node r)
      (u'.transferNode values node' r') := by
  have hread := Alike.same
    (node.kind.operands.forM fun id => discard (operand values node id))
  by_cases hnegates : ∃ id, node.kind = .unary .not id
  · obtain ⟨id, hkind⟩ := hnegates
    have hkind' := (hnot id).mpr hkind
    unfold transferNode
    rw [hoperands, hoperand, hkind', hkind]
    rw [hkind] at hread
    apply hread.bind
    rintro _ _ -
    apply (Alike.same (operand values node id)).bind
    rintro value _ rfl
    exact .ok ⟨rfl, hswap⟩
  · have hkind : ∀ id, node.kind ≠ .unary .not id := fun id h => hnegates ⟨id, h⟩
    rw [transferNode_of_ne_not hkind,
      transferNode_of_ne_not fun id h => hkind id ((hnot id).mp h), hchecker, hoperands, hoperand]
    apply hread.bind
    rintro _ _ -
    apply hevaluate.bind
    rintro ⟨value, s⟩ ⟨_, s'⟩ ⟨rfl, hs⟩
    have hrefined := hrefine hs
    refine .ok ⟨rfl, ?_⟩
    dsimp only
    generalize Refinement.refine? _ _ s = x at hrefined
    generalize Refinement.refine? _ _ s' = x' at hrefined
    cases hrefined with
    | none => exact hregular hs
    | some hsplit => exact hsplit

/-- Two analyses of the same blocks transfer the nodes in them alike, and the parts of related
results are related. -/
structure Parallel (T : TransferResult → TransferResult → Prop) (u u' : UnitAnalysis) : Prop where
  checker : u'.checker = u.checker
  consumers : u'.consumers = u.consumers
  block? (id : BlockId) : u'.graph.block? id = u.graph.block? id
  node (id : NodeId) : Option.Rel (fun node node' => ∀ (values : NodeValues)
    {r r' : TransferResult}, T r r' → Alike (fun x y => x.1 = y.1 ∧ T x.2 y.2)
      (u.transferNode values node r) (u'.transferNode values node' r'))
    (u.graph.node? id) (u'.graph.node? id)
  thenStore {r r' : TransferResult} : T r r' → T (.regular r.thenStore) (.regular r'.thenStore)
  elseStore {r r' : TransferResult} : T r r' → T (.regular r.elseStore) (.regular r'.elseStore)
  collapse {r r' : TransferResult} : T r r' →
    T (.regular (r.collapse u.checker.hierarchy)) (.regular (r'.collapse u.checker.hierarchy))

/-- Two runs over nodes compute the same, and they stop with the same error. -/
inductive RunParallel (T : TransferResult → TransferResult → Prop) :
    BlockRun × Option AnalysisError → BlockRun × Option AnalysisError → Prop where
  | mk {run run' : BlockRun} {error : Option AnalysisError} : run'.values = run.values →
      T run.current run'.current → run'.revisit = run.revisit →
      RunParallel T (run, error) (run', error)

namespace Parallel

theorem recordValue (hu : u.Parallel T u') (id : NodeId) (value : Qualifier)
    {run run' : BlockRun} (hvalues : run'.values = run.values)
    (hrevisit : run'.revisit = run.revisit) :
    (u'.recordValue id value run').values = (u.recordValue id value run).values ∧
      (u'.recordValue id value run').revisit = (u.recordValue id value run).revisit := by
  unfold UnitAnalysis.recordValue
  rw [hu.checker, hu.consumers, hvalues, hrevisit]
  cases run.values.getD id none with
  | none =>
      dsimp only
      split
      · exact ⟨hvalues, hrevisit⟩
      · exact ⟨rfl, rfl⟩
  | some old =>
      dsimp only
      split
      · exact ⟨hvalues, hrevisit⟩
      · exact ⟨rfl, rfl⟩

theorem runNodes (hu : u.Parallel T u') (nodes : List NodeId) {run run' : BlockRun}
    (hvalues : run'.values = run.values) (hcurrent : T run.current run'.current)
    (hrevisit : run'.revisit = run.revisit) :
    RunParallel T (u.runNodes nodes run) (u'.runNodes nodes run') := by
  induction nodes generalizing run run' with
  | nil => exact .mk hvalues hcurrent hrevisit
  | cons id rest ih =>
      have hnode := hu.node id
      unfold UnitAnalysis.runNodes
      generalize u.graph.node? id = found at hnode
      generalize u'.graph.node? id = found' at hnode
      cases hnode with
      | none => exact ih hvalues hcurrent hrevisit
      | @some node node' hnode =>
          have hnode := hnode run.values hcurrent
          rw [hvalues]
          dsimp only
          generalize u.transferNode run.values node run.current = x at hnode
          generalize u'.transferNode run.values node' run'.current = x' at hnode
          cases hnode with
          | error e => exact .mk hvalues hcurrent hrevisit
          | @ok a b hab =>
              obtain ⟨value, result⟩ := a
              obtain ⟨_, result'⟩ := b
              obtain ⟨rfl, hresult⟩ := hab
              obtain ⟨hv, hr⟩ := hu.recordValue id value hvalues hrevisit
              exact ih hv hresult hr

theorem runBlock (hu : u.Parallel T u') (block : Block) (values : NodeValues) (hr : T r r') :
    RunParallel T (u.runBlock block values r) (u'.runBlock block values r') :=
  hu.runNodes block.nodes rfl hr rfl

/-- A block sends on related results to the same blocks. -/
theorem transferBlock (hu : u.Parallel T u') (values : NodeValues) (id : BlockId) (hr : T r r') :
    Alike (fun x y => x.1.Related T y.1 ∧ x.2 = y.2) (u.transferBlock values id r)
      (u'.transferBlock values id r') := by
  have hto (targets : List BlockId) {x y : TransferResult} (hxy : T x y) :
      List.Forall₂ (fun e e' => e.1 = e'.1 ∧ T e.2 e'.2) (targets.map (·, x))
        (targets.map (·, y)) := by
    induction targets with
    | nil => exact .nil
    | cons target rest ih => exact .cons ⟨rfl, hxy⟩ ih
  have hbefore := hu.collapse hr
  unfold UnitAnalysis.transferBlock
  rw [hu.checker, hu.block? id]
  cases u.graph.block? id with
  | none => exact .ok ⟨⟨hr, .nil, rfl⟩, rfl⟩
  | some block =>
      dsimp only
      cases block.kind with
      | conditional condition thenSuccessor elseSuccessor =>
          refine .ok ⟨⟨hr, ?_, rfl⟩, rfl⟩
          exact .cons ⟨rfl, hu.thenStore hr⟩ (.cons ⟨rfl, hu.elseStore hr⟩ .nil)
      | special kind successor => exact .ok ⟨⟨hbefore, hto _ hbefore, rfl⟩, rfl⟩
      | regular successor =>
          have hrun := hu.runBlock block values hr
          dsimp only
          generalize u.runBlock block values r = x at hrun
          generalize u'.runBlock block values r' = y at hrun
          obtain @⟨run, run', error, hvalues, hcurrent, hrevisit⟩ := hrun
          cases error with
          | some e => exact .error e
          | none =>
              exact .ok ⟨⟨hcurrent, .cons ⟨rfl, hcurrent⟩ .nil, hrevisit.symm⟩, hvalues.symm⟩
      | exceptional successor handlers =>
          have hrun := hu.runBlock block values hr
          have hcaught := hto (handlers.map Prod.snd) hbefore
          rw [List.map_map, List.map_map] at hcaught
          dsimp only
          generalize u.runBlock block values r = x at hrun
          generalize u'.runBlock block values r' = y at hrun
          obtain @⟨run, run', error, hvalues, hcurrent, hrevisit⟩ := hrun
          cases error with
          | some e => exact .error e
          | none =>
              refine .ok ⟨⟨hcurrent, ?_, hrevisit.symm⟩, hvalues.symm⟩
              exact List.rel_append (hto _ hcurrent) hcaught

end Parallel

end UnitAnalysis

end FlowTyping
