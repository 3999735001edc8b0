import FlowTyping.Proofs.Checker.Acceptance
import FlowTyping.Proofs.Flow.Failures
import FlowTyping.Proofs.Flow.LeastFixpoint

/-!
Runs along single paths. They keep the qualifiers of their own evaluations, one for each
node, and the fixpoint of the analysis covers all of them.
-/

namespace FlowTyping

open Relation

/-- The qualifiers that a path reads: those of its own evaluations, and the bottom for nodes
that it has not evaluated. -/
def NodeValues.orBottom (h : Hierarchy) (V : NodeValues) : NodeValues :=
  V.map fun q => some (q.getD h.bottom)

namespace UnitAnalysis

/-- The nodes of a block on a path. A node that is evaluated again takes its new qualifier. -/
def pathNodes (u : UnitAnalysis) : List NodeId → NodeValues → TransferResult →
    Except AnalysisError (NodeValues × TransferResult)
  | [], V, r => .ok (V, r)
  | id :: rest, V, r =>
      match u.graph.node? id with
      | none => pathNodes u rest V r
      | some node => do
          let (q, r') ← u.transferNode (V.orBottom u.checker.hierarchy) node r
          pathNodes u rest (V.setIfInBounds id (some q)) r'

/-- What goes along the edges of a block, given the results before and after its nodes. -/
def edgesOf (u : UnitAnalysis) (kind : BlockKind) (before after : TransferResult) :
    List (BlockId × TransferResult) :=
  let early := .regular (before.collapse u.checker.hierarchy)
  match kind with
  | .conditional _ thenSuccessor elseSuccessor =>
      [(thenSuccessor, .regular before.thenStore), (elseSuccessor, .regular before.elseStore)]
  | .special _ successor => successor.toList.map (·, early)
  | .regular successor => [(successor, after)]
  | .exceptional successor handlers =>
      successor.toList.map (·, after) ++ handlers.map fun handler => (handler.2, early)

/-- A path from the entry comes to a block with the qualifiers of its evaluations and a
result. -/
inductive PathRun (u : UnitAnalysis) : BlockId → NodeValues → TransferResult → Prop
  | entry : PathRun u u.graph.entry u.noValues (.regular u.initial)
  | step {b t : BlockId} {block : Block} {V V' : NodeValues} {r r' along : TransferResult}
      (run : PathRun u b V r) (block? : u.graph.block? b = some block)
      (nodes : u.pathNodes block.nodes V r = .ok (V', r'))
      (edge : (t, along) ∈ u.edgesOf block.kind r r') : PathRun u t V' along

variable {u : UnitAnalysis} {V V' W W' : NodeValues} {node : Node} {q q' : Qualifier}
  {b t : BlockId} {block : Block} {ids : List NodeId}
  {input input' r r' f before before' after after' along : TransferResult}

theorem lookup?_of_resolveAt {name : String} (h : u.checker.resolveAt node name = .ok q) :
    u.checker.hierarchy.lookup? name ≠ none := by
  intro hnone
  rw [Checker.resolveAt, hnone] at h
  cases h

theorem lookup?_of_localBound {var : LocalVar} (h : u.checker.localBound node var = .ok q) :
    ∀ name ∈ var.declared.toList, u.checker.hierarchy.lookup? name ≠ none := by
  intro name hname
  rw [Option.mem_toList] at hname
  rw [Checker.localBound, Option.mem_def.mp hname] at h
  exact lookup?_of_resolveAt h

/-- The names of a node that has been evaluated are known. -/
theorem names_of_evaluate {s : Store} {p : Qualifier × Store} (h : u.evaluate V node s = .ok p) :
    ∀ name ∈ node.kind.names, u.checker.hierarchy.lookup? name ≠ none := by
  intro name hname
  cases hkind : node.kind with
  | localRead var =>
      rw [hkind] at hname
      simp only [evaluate, hkind] at h
      obtain ⟨bound, hbound, -⟩ := bind_ok.mp h
      exact lookup?_of_localBound hbound name hname
  | localDecl var =>
      rw [hkind] at hname
      simp only [evaluate, hkind] at h
      obtain ⟨bound, hbound, -⟩ := map_ok h
      exact lookup?_of_localBound hbound name hname
  | cast qualifier id =>
      rw [hkind] at hname
      obtain rfl := List.mem_singleton.mp hname
      simp only [evaluate, hkind] at h
      obtain ⟨q, hq, -⟩ := map_ok h
      exact lookup?_of_resolveAt hq
  | assign target id =>
      rw [hkind] at hname
      cases target with
      | field receiver field => cases hname
      | «local» var =>
          simp only [evaluate, hkind] at h
          obtain ⟨source, -, h⟩ := bind_ok.mp h
          obtain ⟨bound, hbound, -⟩ := bind_ok.mp h
          exact lookup?_of_localBound hbound name hname
  | _ =>
      rw [hkind] at hname
      cases hname

theorem names_of_transferNode (h : u.transferNode V node input = .ok (q, r)) :
    ∀ name ∈ node.kind.names, u.checker.hierarchy.lookup? name ≠ none := by
  by_cases hnot : ∃ id, node.kind = .unary .not id
  · obtain ⟨id, hnot⟩ := hnot
    rw [hnot]
    exact nofun
  · rw [transferNode_of_ne_not fun id hid => hnot ⟨id, hid⟩] at h
    obtain ⟨_, -, h⟩ := bind_ok.mp h
    obtain ⟨p, hp, -⟩ := bind_ok.mp h
    exact names_of_evaluate hp

/-- A node with known names has a qualifier as soon as its operands have one. -/
theorem transferNode_isOk (hnames : ∀ name ∈ node.kind.names,
      u.checker.hierarchy.lookup? name ≠ none) (hoperands : ∀ o ∈ node.kind.operands, V.Holds o) :
    ∃ q r, u.transferNode V node input = .ok (q, r) := by
  cases hresult : u.transferNode V node input with
  | ok p => exact ⟨p.1, p.2, rfl⟩
  | error e =>
      cases transferNode_fails hresult with
      | missing ho hnone => exact absurd (hoperands _ ho) hnone
      | unknown hname hlookup => exact absurd hlookup (hnames _ hname)

theorem getD_orBottom (h : Hierarchy) (V : NodeValues) (id : Nat) :
    (V.orBottom h).getD id none = if id < V.size then some ((V.getD id none).getD h.bottom)
      else none := by
  unfold NodeValues.orBottom
  by_cases hid : id < V.size
  · simp [hid]
  · simp [hid]

/-- Qualifiers filled up with the bottom stay below. -/
theorem orBottom_le (hc : u.checker.Sound)
    (hbottom : ∀ q, u.checker.hierarchy.Has q →
      u.checker.hierarchy.isSubtype u.checker.hierarchy.bottom q = true)
    (hsize : V.size = W.size) (hV : V.Le u.checker.hierarchy W)
    (hW : W.Le u.checker.hierarchy W) :
    (V.orBottom u.checker.hierarchy).Le u.checker.hierarchy
      (W.orBottom u.checker.hierarchy) := by
  intro id q hq
  rw [getD_orBottom] at hq ⊢
  by_cases hid : id < V.size
  swap
  · rw [if_neg hid] at hq
    cases hq
  rw [if_pos hid] at hq
  rw [if_pos (hsize ▸ hid), ← Option.some.inj hq]
  refine ⟨_, rfl, ?_⟩
  cases hv : V.getD id none with
  | some v =>
      obtain ⟨w, hw, hle⟩ := hV id v hv
      rw [hw]
      exact hle
  | none =>
      refine hbottom _ ?_
      cases hw : W.getD id none with
      | some w => exact hW.has hc.lawful hw
      | none => exact (hc.lawful.has_of_le (hbottom _ hc.lawful.has_top)).1

/-- On a path a node has a qualifier below the one that a run records from above. -/
theorem transferNode_orBottom (hc : u.checker.Sound)
    (hbottom : ∀ q, u.checker.hierarchy.Has q →
      u.checker.hierarchy.isSubtype u.checker.hierarchy.bottom q = true)
    (hsize : V.size = W.size) (hV : V.Le u.checker.hierarchy W)
    (hW : W.Le u.checker.hierarchy W) (hinput : input.Under u.checker.hierarchy input')
    (h : u.transferNode W node input' = .ok (q', r')) :
    ∃ q r, u.transferNode (V.orBottom u.checker.hierarchy) node input = .ok (q, r) ∧
      u.checker.hierarchy.isSubtype q q' = true ∧ r.Under u.checker.hierarchy r' := by
  have hholds := operands_of_transferNode h
  have hlt (o : NodeId) (ho : o ∈ node.kind.operands) : o < W.size := by
    obtain ⟨v, hv⟩ := hholds o ho
    by_contra hout
    simp [hout] at hv
  obtain ⟨q, r, hpath⟩ : ∃ q r,
      u.transferNode (V.orBottom u.checker.hierarchy) node input = .ok (q, r) := by
    refine transferNode_isOk (names_of_transferNode h) fun o ho => ?_
    rw [NodeValues.Holds, getD_orBottom, if_pos (hsize.symm ▸ hlt o ho)]
    exact ⟨_, rfl⟩
  have hfilled : u.transferNode (W.orBottom u.checker.hierarchy) node input' = .ok (q', r') := by
    rw [transferNode_congr (V := W) fun o ho => ?_]
    · exact h
    · obtain ⟨v, hv⟩ := hholds o ho
      rw [getD_orBottom, if_pos (hlt o ho), hv]
      rfl
  obtain ⟨hle, hunder⟩ :=
    transferNode_mono hc (orBottom_le hc hbottom hsize hV hW) hinput hpath hfilled
  exact ⟨q, r, hpath, hle, hunder⟩

/-- A path over the nodes of a block stays below a run over them. -/
theorem pathNodes_under (hc : u.checker.Sound)
    (hbottom : ∀ q, u.checker.hierarchy.Has q →
      u.checker.hierarchy.isSubtype u.checker.hierarchy.bottom q = true) {run run' : BlockRun}
    (hsize : V.size = u.graph.nodeCount) (hV : V.Le u.checker.hierarchy run.values)
    (hrun : run.values.Under u.checker.hierarchy u.graph.nodeCount run.values)
    (hr : r.Under u.checker.hierarchy run.current) (h : u.runNodes ids run = (run', none)) :
    ∃ V' r', u.pathNodes ids V r = .ok (V', r') ∧ V'.size = u.graph.nodeCount ∧
      V'.Le u.checker.hierarchy run'.values ∧ r'.Under u.checker.hierarchy run'.current := by
  induction ids generalizing V r run with
  | nil =>
      cases h
      exact ⟨V, r, rfl, hsize, hV, hr⟩
  | cons id rest ih =>
      cases hnode : u.graph.node? id with
      | none =>
          rw [runNodes, hnode] at h
          rw [pathNodes, hnode]
          exact ih hsize hV hrun hr h
      | some node =>
          obtain ⟨q', next, htransfer, h⟩ := (runNodes_cons_ok hnode).mp h
          obtain ⟨q, along, hpath, hle, hunder⟩ := transferNode_orBottom hc hbottom
            (hsize.trans hrun.left.symm) hV hrun.le hr htransfer
          have hlt := node?_lt hnode
          have hrecorded : (u.recordValue id q' run).values.Under u.checker.hierarchy
              u.graph.nodeCount (u.recordValue id q' run).values :=
            recordValue_mono hc hlt hrun
              (hc.lawful.le_refl (hc.lawful.has_of_le hle).2)
          have hkept : NodeValues.Le u.checker.hierarchy (V.setIfInBounds id (some q))
              (u.recordValue id q' run).values := by
            intro j v hv
            rw [recordValue_values (hrun.left ▸ hlt)]
            rw [getD_setIfInBounds] at hv
            by_cases hj : j = id
            · rw [if_pos ⟨hj, hsize ▸ hlt⟩] at hv
              obtain rfl := Option.some.inj hv
              rw [if_pos hj]
              refine ⟨_, rfl, ?_⟩
              change u.checker.hierarchy.isSubtype (u.checker.hierarchy.joinOnto none q) _ = true
              exact hc.lawful.joinOnto_mono (fun o ho => absurd ho.symm (Option.some_ne_none o))
                (fun o ho => hrun.le.has hc.lawful ho) hle
            · rw [if_neg fun h => hj h.1] at hv
              rw [if_neg hj]
              exact hV j v hv
          obtain ⟨V', r', hnodes, hrest⟩ := @ih _ _ ⟨_, next, _⟩
            (Array.size_setIfInBounds.trans hsize) hkept hrecorded hunder h
          refine ⟨V', r', ?_, hrest⟩
          rw [pathNodes, hnode]
          exact bind_ok.mpr ⟨_, hpath, hnodes⟩

/-- A transfer runs over the nodes of a block and sends along its edges. -/
theorem transferBlock_edges (hg : u.graph.Valid) (hblock : u.graph.block? b = some block)
    {sent : BlockTransfer TransferResult} (h : u.transferBlock V b f = .ok (sent, V')) :
    ∃ run, u.runBlock block V f = (run, none) ∧ run.values = V' ∧
      sent.edges = u.edgesOf block.kind f run.current ∧ sent.revisit = run.revisit := by
  rw [transferBlock, hblock] at h
  dsimp only at h
  split at h <;> rename_i hkind
  · cases h
    refine ⟨⟨V, f, []⟩, ?_, rfl, by rw [hkind]; rfl, rfl⟩
    rw [runBlock, (hg.tested hblock hkind).1]
    rfl
  · cases h
    refine ⟨⟨V, f, []⟩, ?_, rfl, by rw [hkind]; rfl, rfl⟩
    rw [runBlock, hg.special hblock hkind]
    rfl
  · split at h
    · cases h
    · rename_i run hrun
      cases h
      exact ⟨run, hrun, rfl, by rw [hkind]; rfl, rfl⟩
  · split at h
    · cases h
    · rename_i run hrun
      cases h
      exact ⟨run, hrun, rfl, by rw [hkind]; rfl, rfl⟩

/-- Along an edge goes an outcome before the block, their join, or the result after it. -/
theorem edgesOf_cases {kind : BlockKind} (h : (t, along) ∈ u.edgesOf kind before after) :
    along = after ∨ ∃ s ∈ [before.thenStore, before.elseStore,
      before.collapse u.checker.hierarchy], along = .regular s := by
  cases kind with
  | conditional condition thenSuccessor elseSuccessor =>
      rcases List.mem_cons.mp h with h | h
      · cases h
        exact .inr ⟨_, by simp, rfl⟩
      · cases List.mem_singleton.mp h
        exact .inr ⟨_, by simp, rfl⟩
  | special kind successor =>
      obtain ⟨t', ht', heq⟩ := List.mem_map.mp h
      cases heq
      exact .inr ⟨_, by simp, rfl⟩
  | regular successor =>
      cases List.mem_singleton.mp h
      exact .inl rfl
  | exceptional successor handlers =>
      rcases List.mem_append.mp h with h | h
      · obtain ⟨t', ht', heq⟩ := List.mem_map.mp h
        cases heq
        exact .inl rfl
      · obtain ⟨handler, hhandler, heq⟩ := List.mem_map.mp h
        cases heq
        exact .inr ⟨_, by simp, rfl⟩

theorem edgesOf_mono (hc : u.checker.Sound) {kind : BlockKind}
    (hbefore : before.Under u.checker.hierarchy before')
    (hafter : after.Under u.checker.hierarchy after')
    (h : (t, along) ∈ u.edgesOf kind before after) :
    ∃ e ∈ u.edgesOf kind before' after', e.1 = t ∧ along.Under u.checker.hierarchy e.2 := by
  have hcollapse := (hbefore.collapse hc.lawful).regular
  cases kind with
  | conditional condition thenSuccessor elseSuccessor =>
      rcases List.mem_cons.mp h with h | h
      · cases h
        exact ⟨_, List.mem_cons_self, rfl, hbefore.thenStore.regular⟩
      · cases List.mem_singleton.mp h
        exact ⟨_, List.mem_cons_of_mem _ List.mem_cons_self, rfl, hbefore.elseStore.regular⟩
  | special kind successor =>
      obtain ⟨t', ht', heq⟩ := List.mem_map.mp h
      cases heq
      exact ⟨_, List.mem_map.mpr ⟨t, ht', rfl⟩, rfl, hcollapse⟩
  | regular successor =>
      cases List.mem_singleton.mp h
      exact ⟨_, List.mem_cons_self, rfl, hafter⟩
  | exceptional successor handlers =>
      rcases List.mem_append.mp h with h | h
      · obtain ⟨t', ht', heq⟩ := List.mem_map.mp h
        cases heq
        exact ⟨_, List.mem_append_left _ (List.mem_map.mpr ⟨t, ht', rfl⟩), rfl, hafter⟩
      · obtain ⟨handler, hhandler, heq⟩ := List.mem_map.mp h
        cases heq
        exact ⟨_, List.mem_append_right _ (List.mem_map.mpr ⟨handler, hhandler, rfl⟩), rfl,
          hcollapse⟩

/-- Something goes along every edge of a block. -/
theorem exists_edgesOf (u : UnitAnalysis) {kind : BlockKind} (before after : TransferResult)
    (ht : t ∈ kind.successors) : ∃ along, (t, along) ∈ u.edgesOf kind before after := by
  cases kind with
  | conditional condition thenSuccessor elseSuccessor =>
      rcases List.mem_cons.mp ht with rfl | ht
      · exact ⟨_, List.mem_cons_self⟩
      · obtain rfl := List.mem_singleton.mp ht
        exact ⟨_, List.mem_cons_of_mem _ List.mem_cons_self⟩
  | special kind successor => exact ⟨_, List.mem_map.mpr ⟨t, ht, rfl⟩⟩
  | regular successor =>
      obtain rfl := List.mem_singleton.mp ht
      exact ⟨_, List.mem_cons_self⟩
  | exceptional successor handlers =>
      rcases List.mem_append.mp ht with ht | ht
      · exact ⟨_, List.mem_append_left _ (List.mem_map.mpr ⟨t, ht, rfl⟩)⟩
      · obtain ⟨handler, hhandler, rfl⟩ := List.mem_map.mp ht
        exact ⟨_, List.mem_append_right _ (List.mem_map.mpr ⟨handler, hhandler, rfl⟩)⟩

/-- The results of solving cover a path that comes to a block. -/
structure Tracks (u : UnitAnalysis) (s : Solving TransferResult NodeValues) (b : BlockId)
    (V : NodeValues) (r : TransferResult) : Prop where
  size : V.size = u.graph.nodeCount
  values : V.Le u.checker.hierarchy s.state
  input : ∃ f, s.table.before b = some f ∧ r.Under u.checker.hierarchy f

namespace Fit

variable {ranks : Array Nat} {s : Solving TransferResult NodeValues}

/-- What arrives at a block is below the fact before it. -/
theorem edge_under (h : u.Fit)
    (hsteps : ReflTransGen (Solving.Step u.dataflow u.graph ranks) (.start u.graph u.noValues) s)
    (hempty : s.worklist = []) (hold : s.table.edge b t = some f) :
    ∃ f', s.table.before t = some f' ∧ f.Under u.checker.hierarchy f' := by
  have hs := h.sane hsteps
  have hnone {b : BlockId} : b ∉ s.worklist := by simp [hempty]
  obtain ⟨hedge, hvisited⟩ := hs.edge b t f hold
  obtain ⟨f', hf'⟩ := hvisited.resolve_left hnone
  refine ⟨f', hf', ?_⟩
  rw [← ((hs.settled t f' hf').resolve_left hnone).input]
  have harrives : f ∈ (u.graph.predecessorsOf t).filterMap fun p => s.table.edge p t :=
    List.mem_filterMap.mpr
      ⟨b, h.valid.predecessors.mpr ⟨h.valid.lt_of_mem_successors hedge, hedge⟩, hold⟩
  have hfine : ∀ f ∈ (u.graph.predecessorsOf t).filterMap fun p => s.table.edge p t,
      f.Wf u.checker.hierarchy := by
    intro f hf
    obtain ⟨p, -, hp⟩ := List.mem_filterMap.mp hf
    exact (hs.facts.edge p t f hp).left
  have hlive := hs.facts.edge b t f hold
  unfold FlowTable.input DataflowAnalysis.arriving
  dsimp only
  split
  · refine h.lawful.le_joinAll (List.mem_cons_of_mem _ harrives) hlive ?_
    exact List.forall_mem_cons.mpr ⟨(h.lawful.fine h.lawful.initial).1, hfine⟩
  · exact h.lawful.le_joinAll harrives hlive hfine

/-- A path that is covered goes through the block, and is covered along every edge. -/
theorem tracks_onward (h : u.Fit)
    (hbottom : ∀ q, u.checker.hierarchy.Has q →
      u.checker.hierarchy.isSubtype u.checker.hierarchy.bottom q = true)
    (hsteps : ReflTransGen (Solving.Step u.dataflow u.graph ranks) (.start u.graph u.noValues) s)
    (hempty : s.worklist = []) (ht : u.Tracks s b V r) (hblock : u.graph.block? b = some block) :
    ∃ V' r', u.pathNodes block.nodes V r = .ok (V', r') ∧
      V'.Le u.checker.hierarchy s.state ∧
      ∀ t along, (t, along) ∈ u.edgesOf block.kind r r' → u.Tracks s t V' along := by
  have hs := h.sane hsteps
  obtain ⟨f, hf, hr⟩ := ht.input
  obtain ⟨sent, hsent, -, hedges⟩ :=
    ((hs.settled b f hf).resolve_left (by simp [hempty])).transfer
  obtain ⟨run, hrun, hvalues, hsentEdges, -⟩ := transferBlock_edges h.valid hblock hsent
  obtain ⟨V', r', hnodes, hsize, hV', hr'⟩ :=
    pathNodes_under h.sound hbottom ht.size ht.values hs.state hr hrun
  rw [hvalues] at hV'
  refine ⟨V', r', hnodes, hV', fun t along halong => ⟨hsize, hV', ?_⟩⟩
  obtain ⟨e, he, rfl, hunder⟩ := edgesOf_mono h.sound hr hr' halong
  obtain ⟨old, hold, hle⟩ := hedges e (hsentEdges ▸ he)
  obtain ⟨f', hf', hle'⟩ := h.edge_under hsteps hempty hold
  exact ⟨f', hf', h.lawful.trans hunder (h.lawful.trans hle hle')⟩

/-- The initial fact is below the fact before the entry. -/
theorem entry_under (h : u.Fit)
    (hsteps : ReflTransGen (Solving.Step u.dataflow u.graph ranks) (.start u.graph u.noValues) s)
    (hempty : s.worklist = []) : ∃ f, s.table.before u.graph.entry = some f ∧
      (TransferResult.regular u.initial).Under u.checker.hierarchy f := by
  have hs := h.sane hsteps
  have hnone {b : BlockId} : b ∉ s.worklist := by simp [hempty]
  obtain ⟨f, hf⟩ := hs.entry.resolve_left hnone
  refine ⟨f, hf, ?_⟩
  rw [← ((hs.settled _ f hf).resolve_left hnone).input]
  have hinitial : u.dataflow.initial ∈
      u.dataflow.arriving u.graph s.table.edge u.graph.entry := by
    rw [DataflowAnalysis.arriving, if_pos rfl]
    exact List.mem_cons_self
  refine h.lawful.le_joinAll hinitial h.lawful.initial fun f' hf' => ?_
  rw [DataflowAnalysis.arriving, if_pos rfl] at hf'
  rcases List.mem_cons.mp hf' with rfl | hf'
  · exact (h.lawful.fine h.lawful.initial).1
  · obtain ⟨p, -, hp⟩ := List.mem_filterMap.mp hf'
    exact (hs.facts.edge p _ f' hp).left

/-- By induction on the path: the entry is covered, and a step keeps the path covered. -/
theorem tracks (h : u.Fit)
    (hbottom : ∀ q, u.checker.hierarchy.Has q →
      u.checker.hierarchy.isSubtype u.checker.hierarchy.bottom q = true)
    (hsteps : ReflTransGen (Solving.Step u.dataflow u.graph ranks) (.start u.graph u.noValues) s)
    (hempty : s.worklist = []) (hrun : u.PathRun b V r) : u.Tracks s b V r := by
  induction hrun with
  | entry =>
      exact ⟨Array.size_replicate,
        fun id _ hq => absurd ((getD_noValues id).symm.trans hq) nofun,
        h.entry_under hsteps hempty⟩
  | step run hblock hnodes hedge ih =>
      obtain ⟨V', r', hnodes', -, honward⟩ := h.tracks_onward hbottom hsteps hempty ih hblock
      rw [hnodes] at hnodes'
      cases hnodes'
      exact honward _ _ hedge

end Fit

end UnitAnalysis

/-- What was found covers a path that comes to a block: the result of the path is subsumed
by the fact recorded before the block, the qualifiers of the path are subtypes of those
recorded, and this stays so when the path goes through the block, which it can leave along
every edge. -/
structure AnalyzedUnit.Covers (a : AnalyzedUnit) (u : UnitAnalysis) (b : BlockId)
    (V : NodeValues) (r : TransferResult) : Prop where
  input : ∃ f, a.fixpoint.inFact b = some f ∧ r.isSubsumedBy u.checker.hierarchy f = true
  values : V.Le u.checker.hierarchy a.values
  onward : ∃ block V' r', a.graph.block? b = some block ∧
    u.pathNodes block.nodes V r = .ok (V', r') ∧ V'.Le u.checker.hierarchy a.values ∧
    ∀ t ∈ a.graph.successors b, ∃ along, (t, along) ∈ u.edgesOf block.kind r r'

namespace Checker

variable {d : CheckerDeclaration} {c : Checker} {s : AnalysisSettings} {u : ProgramUnit}
  {a : AnalyzedUnit}

/-- What a successful analysis has done: visits of waiting blocks until none was left, with
the facts and the qualifiers of reached nodes that it gives, and then a check. -/
structure Analyzes (c : Checker) (s : AnalysisSettings) (u : ProgramUnit) (a : AnalyzedUnit)
    (initial : Store) (solved : Solving TransferResult NodeValues) : Prop where
  lower : u.lower = .ok a.graph
  store : c.initialStore u = .ok initial
  fit : (UnitAnalysis.new c a.graph initial).Fit
  steps : ReflTransGen (Solving.Step (UnitAnalysis.new c a.graph initial).dataflow a.graph
    a.graph.ranks) (.start a.graph (UnitAnalysis.new c a.graph initial).noValues) solved
  empty : solved.worklist = []
  before : ∀ b, solved.table.before b = a.fixpoint.inFact b
  after : ∀ b, solved.table.after b = a.fixpoint.outFact b
  kept : ∀ j node, a.graph.node? j = some node →
    (UnitAnalysis.new c a.graph initial).Reached node →
    a.values.getD j none = solved.state.getD j none
  checked : ∃ bound, c.checkGraph a.graph a.values bound s.checkUnreachable = .ok a.diagnostics

theorem analyze_steps (hc : ofDeclaration d = .ok c) (ha : c.analyze s u = .ok a) :
    ∃ initial solved, c.Analyzes s u a initial solved := by
  obtain ⟨g, hlower, ha⟩ := bind_ok.mp ha
  obtain ⟨rfl, initial, bound, limit, state, hinitial, -, hsolve, hconclude⟩ :=
    analyzeGraph_ok (Hierarchy.mapError_ok ha)
  have hlower := Hierarchy.mapError_ok hlower
  have hsound := ofDeclaration_sound hc
  have hfit := UnitAnalysis.fit_new hsound (ProgramUnit.lower_valid hlower)
    (ProgramUnit.lower_ordered hlower) (hsound.initialStore_under hinitial)
  obtain ⟨solved, hsteps, hempty, htable⟩ := solve_steps hsolve
  obtain ⟨values, hvalues, hdiagnostics⟩ := bind_ok.mp hconclude
  obtain ⟨diagnostics, hchecked, heq⟩ := bind_ok.mp hdiagnostics
  cases heq
  refine ⟨initial, solved, hlower, hinitial, hfit, hsteps, hempty, fun b => ?_, fun b => ?_,
    fun j node hnode hreached => ?_, bound, hchecked⟩
  · rw [htable]
    rfl
  · rw [htable]
    rfl
  · have hstate : solved.state = state := congrArg FlowTable.state htable
    rw [hstate]
    exact UnitAnalysis.finalValues_reached hfit.valid hvalues hnode hreached

/-- The qualifiers that solving leaves are recorded. -/
theorem Analyzes.recorded {initial : Store} {solved : Solving TransferResult NodeValues}
    (h : c.Analyzes s u a initial solved) {j : NodeId} {q : Qualifier}
    (hq : solved.state.getD j none = some q) : a.values.getD j none = some q := by
  obtain ⟨node, hnode, hreached⟩ := h.fit.reached_of_value h.steps hq
  exact (h.kept j node hnode hreached).trans hq

/-- The fixpoint that the analysis of a unit finds covers every path from the entry. -/
theorem analyze_covers_paths (hc : ofDeclaration d = .ok c) (ha : c.analyze s u = .ok a) :
    ∃ initial, u.lower = .ok a.graph ∧ c.initialStore u = .ok initial ∧
      ∀ b V r, (UnitAnalysis.new c a.graph initial).PathRun b V r →
        a.Covers (.new c a.graph initial) b V r := by
  obtain ⟨initial, solved, h⟩ := analyze_steps hc ha
  refine ⟨initial, h.lower, h.store, fun b V r hrun => ?_⟩
  have hbottom : ∀ q, c.hierarchy.Has q →
      c.hierarchy.isSubtype c.hierarchy.bottom q = true := fun q hq => bottom_le hc hq
  have htracks := h.fit.tracks hbottom h.steps h.empty hrun
  have hfinal {V : NodeValues} (hV : V.Le c.hierarchy solved.state) :
      V.Le c.hierarchy a.values := by
    intro id q hq
    obtain ⟨q', hq', hle⟩ := hV id q hq
    exact ⟨q', h.recorded hq', hle⟩
  obtain ⟨f, hf, hunder⟩ := htracks.input
  have hs := h.fit.sane h.steps
  have hlt : b < a.graph.size := hs.lt_size h.fit.valid (.inr (hs.marked b f hf))
  have hblock : a.graph.block? b = some a.graph.blocks[b] := Array.getElem?_eq_getElem hlt
  obtain ⟨V', r', hnodes, hV', -⟩ := h.fit.tracks_onward hbottom h.steps h.empty htracks hblock
  refine ⟨⟨f, (h.before b).symm.trans hf, ?_⟩, hfinal htracks.values, _, V', r', hblock, hnodes,
    hfinal hV', fun t ht => ?_⟩
  · have hbelow := (TransferResult.isBelow_iff h.fit.sound.lawful hunder.left hunder.right).mpr
      hunder.le
    exact (Bool.and_eq_true_iff.mp hbelow).1
  · obtain ⟨block, hblock', ht⟩ := FlowGraph.mem_successors.mp ht
    rw [hblock] at hblock'
    cases hblock'
    exact UnitAnalysis.exists_edgesOf _ r r' ht

end Checker

theorem followingUnit_covers_paths : ∃ c a, Checker.ofDeclaration presence = .ok c ∧
    c.analyze .standard followingUnit = .ok a ∧
    ∃ initial, followingUnit.lower = .ok a.graph ∧ c.initialStore followingUnit = .ok initial ∧
      ∀ b V r, (UnitAnalysis.new c a.graph initial).PathRun b V r →
        a.Covers (.new c a.graph initial) b V r := by
  have hok : ((Checker.ofDeclaration presence).toOption.bind fun c =>
      (c.analyze .standard followingUnit).toOption).isSome = true := by decide +kernel
  obtain ⟨a, h⟩ := Option.isSome_iff_exists.mp hok
  obtain ⟨c, hc, ha⟩ := Option.bind_eq_some_iff.mp h
  have hc := ok_of_toOption hc
  have ha := ok_of_toOption ha
  exact ⟨c, a, hc, ha, Checker.analyze_covers_paths hc ha⟩

end FlowTyping
