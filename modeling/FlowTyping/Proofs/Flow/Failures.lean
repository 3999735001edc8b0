import FlowTyping.Proofs.Flow.Blocks

/-!
How transfers fail. A node lacks an operand or names an unknown qualifier; the nodes before
it in its block have qualifiers by then.
-/

namespace FlowTyping

/-- The qualifiers that a node names. -/
def NodeKind.names : NodeKind → List String
  | .localRead var | .localDecl var | .assign (.local var) _ => var.declared.toList
  | .cast qualifier _ => [qualifier]
  | _ => []

namespace Checker

variable {c : Checker} {node : Node} {e : AnalysisError} {name : String}

theorem resolveAt_error (h : c.resolveAt node name = .error e) :
    c.hierarchy.lookup? name = none ∧ e = .unknownQualifier name node.block node.id := by
  unfold resolveAt at h
  split at h
  · cases h
  · cases h
    exact ⟨‹_›, rfl⟩

theorem localBound_error {var : LocalVar} (h : c.localBound node var = .error e) :
    ∃ name ∈ var.declared, c.resolveAt node name = .error e := by
  unfold localBound at h
  split at h
  · exact ⟨_, ‹_›, h⟩
  · cases h
  · cases h

end Checker

/-- The node has a qualifier. -/
def NodeValues.Holds (V : NodeValues) (id : NodeId) : Prop := ∃ q, V.getD id none = some q

namespace UnitAnalysis

open Relation

variable {u : UnitAnalysis} {V : NodeValues} {node : Node} {e : AnalysisError}
  {input : TransferResult} {run run' : BlockRun} {id : NodeId} {ids : List NodeId}

theorem operand_error (h : operand V node id = .error e) :
    ¬ V.Holds id ∧ e = .missingOperand id node.id node.block := by
  unfold operand at h
  split at h
  · cases h
  · rename_i hnone
    cases h
    refine ⟨fun ⟨q, hq⟩ => ?_, rfl⟩
    rw [hnone] at hq
    cases hq

/-- The ways in which a node can fail. -/
inductive Fails (u : UnitAnalysis) (V : NodeValues) (node : Node) : AnalysisError → Prop where
  | missing {o : NodeId} : o ∈ node.kind.operands → ¬ V.Holds o →
      Fails u V node (.missingOperand o node.id node.block)
  | unknown {name : String} : name ∈ node.kind.names → u.checker.hierarchy.lookup? name = none →
      Fails u V node (.unknownQualifier name node.block node.id)

theorem Fails.of_operand (hid : id ∈ node.kind.operands) (h : operand V node id = .error e) :
    u.Fails V node e := by
  obtain ⟨hnone, rfl⟩ := operand_error h
  exact .missing hid hnone

theorem Fails.of_resolveAt {name : String} (hname : name ∈ node.kind.names)
    (h : u.checker.resolveAt node name = .error e) : u.Fails V node e := by
  obtain ⟨hnone, rfl⟩ := Checker.resolveAt_error h
  exact .unknown hname hnone

theorem Fails.of_localBound {var : LocalVar} (hnames : node.kind.names = var.declared.toList)
    (h : u.checker.localBound node var = .error e) : u.Fails V node e := by
  obtain ⟨name, hname, h⟩ := Checker.localBound_error h
  exact .of_resolveAt (hnames ▸ Option.mem_toList.mpr hname) h

theorem Fails.of_joinOperands {a b : NodeId} (ha : a ∈ node.kind.operands)
    (hb : b ∈ node.kind.operands) (h : u.joinOperands V node a b = .error e) :
    u.Fails V node e := by
  rcases bind_error.mp h with h | ⟨l, -, h⟩
  · exact .of_operand ha h
  rcases bind_error.mp h with h | ⟨r, -, h⟩
  · exact .of_operand hb h
  · cases h

theorem evaluate_fails {s : Store} (h : u.evaluate V node s = .error e) : u.Fails V node e := by
  unfold evaluate at h
  dsimp only at h
  split at h <;> rename_i hkind
  · cases h
  · rcases bind_error.mp h with h | ⟨bound, -, h⟩
    · exact .of_localBound (by rw [hkind]; rfl) h
    · cases h
  · cases h
  · cases h
  · cases h
  · cases h
  · split at h
    · cases h
    split at h
    · cases h
    · exact .of_joinOperands (by simp [hkind, NodeKind.operands])
        (by simp [hkind, NodeKind.operands]) (map_error.mp h)
  · exact .of_joinOperands (by simp [hkind, NodeKind.operands]) (by simp [hkind, NodeKind.operands])
      (map_error.mp h)
  · exact .of_joinOperands (by simp [hkind, NodeKind.operands]) (by simp [hkind, NodeKind.operands])
      (map_error.mp h)
  · exact .of_resolveAt (by simp [hkind, NodeKind.names]) (map_error.mp h)
  · exact .of_operand (by simp [hkind, NodeKind.operands]) (map_error.mp h)
  · exact .of_localBound (by rw [hkind]; rfl) (map_error.mp h)
  · rcases bind_error.mp h with h | ⟨source, -, h⟩
    · exact .of_operand (by simp [hkind, NodeKind.operands]) h
    rcases bind_error.mp h with h | ⟨bound, -, h⟩
    · exact .of_localBound (by rw [hkind]; rfl) h
    · cases h
  · rcases bind_error.mp h with h | ⟨source, -, h⟩
    · exact .of_operand (by simp [hkind, NodeKind.operands]) h
    · cases h
  · exact .of_operand (by simp [hkind, NodeKind.operands]) (map_error.mp h)
  · exact .of_operand (by simp [hkind, NodeKind.operands]) (map_error.mp h)
  all_goals cases h

theorem transferNode_fails (h : u.transferNode V node input = .error e) : u.Fails V node e := by
  rcases bind_error.mp h with h | ⟨_, -, h⟩
  · obtain ⟨o, ho, h⟩ := forM_error h
    exact .of_operand ho (map_error.mp h)
  · split at h
    · rename_i id hkind
      rcases bind_error.mp h with h | ⟨q, -, h⟩
      · exact .of_operand (by simp [hkind, NodeKind.operands]) h
      · cases h
    · rcases bind_error.mp h with h | ⟨p, -, h⟩
      · exact evaluate_fails h
      · cases h

/-- What a run fills in: the nodes up to where it stops. No qualifier is lost. -/
structure Fills (done : List NodeId) (V W : NodeValues) : Prop where
  size : W.size = V.size
  done : ∀ j ∈ done, W.Holds j
  kept : ∀ j, V.Holds j → W.Holds j

theorem Fills.nil (V : NodeValues) : Fills [] V V where
  size := rfl
  done := nofun
  kept _ h := h

theorem Fills.trans {U V W : NodeValues} {ids ids' : List NodeId} (h : Fills ids U V)
    (h' : Fills ids' V W) : Fills (ids ++ ids') U W where
  size := h'.size.trans h.size
  done j hj := by
    rcases List.mem_append.mp hj with hj | hj
    · exact h'.kept j (h.done j hj)
    · exact h'.done j hj
  kept j hj := h'.kept j (h.kept j hj)

theorem recordValue_fills {q : Qualifier} (hid : id < run.values.size) :
    Fills [id] run.values (u.recordValue id q run).values where
  size := recordValue_size
  done j hj := by
    obtain rfl := List.mem_singleton.mp hj
    exact ⟨_, (recordValue_values hid j).trans (if_pos rfl)⟩
  kept j hj := by
    unfold NodeValues.Holds
    rw [recordValue_values hid]
    by_cases hj' : j = id
    · exact ⟨_, if_pos hj'⟩
    · rw [if_neg hj']
      exact hj

/-- A run fills in all of its nodes, or those before one at which it fails. -/
theorem runNodes_fills (hids : ∀ id ∈ ids, ∃ node, u.graph.node? id = some node)
    (hsize : run.values.size = u.graph.nodeCount) {failure : Option AnalysisError}
    (h : u.runNodes ids run = (run', failure)) :
    (failure = none ∧ Fills ids run.values run'.values) ∨
      ∃ e pre k post node, failure = some e ∧ ids = pre ++ k :: post ∧
        u.graph.node? k = some node ∧ Fills pre run.values run'.values ∧
        u.Fails run'.values node e := by
  induction ids generalizing run with
  | nil =>
      cases h
      exact .inl ⟨rfl, .nil _⟩
  | cons id rest ih =>
      obtain ⟨⟨node, hnode⟩, hrest⟩ := List.forall_mem_cons.mp hids
      rw [runNodes, hnode] at h
      dsimp only at h
      split at h
      · rename_i e htransfer
        cases h
        exact .inr ⟨e, [], id, rest, node, rfl, rfl, hnode, .nil _, transferNode_fails htransfer⟩
      · rename_i q r htransfer
        have hrecord : Fills [id] run.values (u.recordValue id q run).values :=
          recordValue_fills (hsize ▸ node?_lt hnode)
        have hsize : ({ u.recordValue id q run with current := r } : BlockRun).values.size =
            u.graph.nodeCount := hrecord.size.trans hsize
        rcases ih hrest hsize h with ⟨hnone, hfills⟩ |
          ⟨e, pre, k, post, node', he, rfl, hnode', hfills, hfails⟩
        · exact .inl ⟨hnone, hrecord.trans hfills⟩
        · exact .inr ⟨e, id :: pre, k, post, node', he, rfl, hnode', hrecord.trans hfills, hfails⟩

/-- A run over a block fails at one of its nodes, which lacks an operand from outside of
what was run or names an unknown qualifier. -/
inductive Stops (u : UnitAnalysis) (b : BlockId) (V : NodeValues) : AnalysisError → Prop where
  | missing {block : Block} {pre post : List NodeId} {k o : NodeId} {node : Node} :
      u.graph.block? b = some block → block.nodes = pre ++ k :: post →
      u.graph.node? k = some node → o ∈ node.kind.operands → o ∉ pre → ¬ V.Holds o →
      Stops u b V (.missingOperand o k b)
  | unknown {k : NodeId} {node : Node} {name : String} : u.graph.node? k = some node →
      node.block = b → name ∈ node.kind.names → u.checker.hierarchy.lookup? name = none →
      Stops u b V (.unknownQualifier name b k)

theorem runBlock_fills {b : BlockId} {block : Block} (hg : u.graph.Valid)
    (hblock : u.graph.block? b = some block) (hsize : V.size = u.graph.nodeCount)
    {failure : Option AnalysisError} (h : u.runBlock block V input = (run, failure)) :
    run.values.size = V.size ∧ (∀ j, V.Holds j → run.values.Holds j) ∧
      ((failure = none ∧ ∀ j ∈ block.nodes, run.values.Holds j) ∨
        ∃ e, failure = some e ∧ u.Stops b V e) := by
  have hids : ∀ id ∈ block.nodes, ∃ node, u.graph.node? id = some node :=
    fun id hid => (hg.listed hblock id hid).imp fun _ h => h.1
  rcases runNodes_fills hids hsize h with ⟨hnone, hfills⟩ |
    ⟨e, pre, k, post, node, he, hnodes, hnode, hfills, hfails⟩
  · exact ⟨hfills.size, hfills.kept, .inl ⟨hnone, hfills.done⟩⟩
  · refine ⟨hfills.size, hfills.kept, .inr ⟨e, he, ?_⟩⟩
    have hk : k ∈ block.nodes := by simp [hnodes]
    obtain ⟨node', hnode', hhome⟩ := hg.listed hblock k hk
    rw [hnode] at hnode'
    cases hnode'
    cases hfails with
    | missing ho hnone =>
        rw [hhome, hg.node hnode]
        exact .missing hblock hnodes hnode ho (fun hpre => hnone (hfills.done _ hpre))
          fun hold => hnone (hfills.kept _ hold)
    | unknown hname hlookup =>
        rw [hhome, hg.node hnode]
        exact .unknown hnode hhome hname hlookup

variable {b : BlockId} {r : BlockTransfer TransferResult} {V' : NodeValues}

/-- A transfer sends along every edge. -/
theorem transferBlock_covers (h : u.transferBlock V b input = .ok (r, V')) (t : BlockId) :
    t ∈ u.graph.successors b ↔ ∃ e ∈ r.edges, e.1 = t := by
  refine ⟨fun ht => ?_, fun ⟨e, he, heq⟩ => heq ▸ transferBlock_follows h e he⟩
  obtain ⟨block, hblock, ht⟩ := FlowGraph.mem_successors.mp ht
  unfold Block.successors at ht
  unfold transferBlock at h
  rw [hblock] at h
  dsimp only at h
  split at h <;> rename_i hkind <;> rw [hkind] at ht
  · cases h
    rcases List.mem_cons.mp ht with rfl | ht
    · exact ⟨_, List.mem_cons_self, rfl⟩
    · obtain rfl := List.mem_singleton.mp ht
      exact ⟨_, List.mem_cons_of_mem _ List.mem_cons_self, rfl⟩
  · cases h
    exact ⟨_, List.mem_map.mpr ⟨t, ht, rfl⟩, rfl⟩
  · split at h
    · cases h
    · cases h
      obtain rfl := List.mem_singleton.mp ht
      exact ⟨_, List.mem_cons_self, rfl⟩
  · split at h
    · cases h
    · cases h
      rcases List.mem_append.mp ht with ht | ht
      · exact ⟨_, List.mem_append_left _ (List.mem_map.mpr ⟨t, ht, rfl⟩), rfl⟩
      · obtain ⟨handler, hhandler, rfl⟩ := List.mem_map.mp ht
        exact ⟨_, List.mem_append_right _ (List.mem_map.mpr ⟨handler, hhandler, rfl⟩), rfl⟩

/-- A transfer fills in the nodes of its block. -/
theorem transferBlock_fills (hg : u.graph.Valid) (hsize : V.size = u.graph.nodeCount)
    (h : u.transferBlock V b input = .ok (r, V')) :
    V'.size = V.size ∧ (∀ j, V.Holds j → V'.Holds j) ∧ ∀ j, u.graph.Home j b → V'.Holds j := by
  suffices hall : V'.size = V.size ∧ (∀ j, V.Holds j → V'.Holds j) ∧
      ∀ block, u.graph.block? b = some block → ∀ j ∈ block.nodes, V'.Holds j from
    ⟨hall.1, hall.2.1, fun j ⟨block, hblock, hj⟩ => hall.2.2 block hblock j hj⟩
  cases hblock : u.graph.block? b with
  | none =>
      unfold transferBlock at h
      rw [hblock] at h
      cases h
      exact ⟨rfl, fun _ hj => hj, nofun⟩
  | some block =>
      have hrun {run : BlockRun} (hrun : u.runBlock block V input = (run, none)) :
          run.values.size = V.size ∧ (∀ j, V.Holds j → run.values.Holds j) ∧
            ∀ block', some block = some block' → ∀ j ∈ block'.nodes, run.values.Holds j := by
        obtain ⟨hsize, hkept, ⟨-, hdone⟩ | ⟨e, he, -⟩⟩ := runBlock_fills hg hblock hsize hrun
        · exact ⟨hsize, hkept, fun block' hblock' => Option.some.inj hblock' ▸ hdone⟩
        · cases he
      have hempty (hnodes : block.nodes = []) :
          V.size = V.size ∧ (∀ j, V.Holds j → V.Holds j) ∧
            ∀ block', some block = some block' → ∀ j ∈ block'.nodes, V.Holds j := by
        refine ⟨rfl, fun _ hj => hj, fun block' hblock' => ?_⟩
        cases hblock'
        rw [hnodes]
        exact nofun
      unfold transferBlock at h
      rw [hblock] at h
      dsimp only at h
      split at h <;> rename_i hkind
      · cases h
        exact hempty (hg.tested hblock hkind).1
      · cases h
        exact hempty (hg.special hblock hkind)
      · split at h
        · cases h
        · cases h
          exact hrun ‹_›
      · split at h
        · cases h
        · cases h
          exact hrun ‹_›

/-- A transfer fails as the run over its block does. -/
theorem transferBlock_error (h : u.transferBlock V b input = .error e) :
    ∃ block run, u.graph.block? b = some block ∧ u.runBlock block V input = (run, some e) := by
  unfold transferBlock at h
  split at h
  · cases h
  · rename_i block hblock
    split at h
    · cases h
    · cases h
    · split at h
      · cases h
        exact ⟨block, _, hblock, ‹_›⟩
      · cases h
    · split at h
      · cases h
        exact ⟨block, _, hblock, ‹_›⟩
      · cases h

/-- A transfer fails where its run stops. -/
theorem transferBlock_stops (hg : u.graph.Valid) (hsize : V.size = u.graph.nodeCount)
    (h : u.transferBlock V b input = .error e) : u.Stops b V e := by
  obtain ⟨block, run, hblock, hrun⟩ := transferBlock_error h
  obtain ⟨-, -, ⟨hnone, -⟩ | ⟨e', he, hstops⟩⟩ := runBlock_fills hg hblock hsize hrun
  · cases hnone
  · cases he
    exact hstops

end UnitAnalysis

end FlowTyping
