import FlowTyping.Flow.Analysis
import FlowTyping.Proofs.Flow.Runs
import FlowTyping.Proofs.Flow.Solver

/-!
The transfer of blocks: the analysis of qualifiers obeys the laws that the theory of the
solver asks for.
-/

namespace FlowTyping

namespace UnitAnalysis

variable {u : UnitAnalysis} {V V' W W' : NodeValues} {id other : BlockId}
  {input input' : TransferResult} {r r' : BlockTransfer TransferResult}

theorem runBlock_mono (hc : u.checker.Sound) {block : Block} {run run' : BlockRun}
    (hV : V.Under u.checker.hierarchy u.graph.nodeCount W)
    (hinput : input.Under u.checker.hierarchy input')
    (h : u.runBlock block V input = (run, none)) (h' : u.runBlock block W input' = (run', none)) :
    run.values.Under u.checker.hierarchy u.graph.nodeCount run'.values ∧
      run.current.Under u.checker.hierarchy run'.current :=
  runNodes_mono hc hV hinput h h'

/-- The transfer of a block from more and from results above. -/
theorem transferBlock_mono (hc : u.checker.Sound)
    (hV : V.Under u.checker.hierarchy u.graph.nodeCount W)
    (hinput : input.Under u.checker.hierarchy input')
    (h : u.transferBlock V id input = .ok (r, V'))
    (h' : u.transferBlock W id input' = .ok (r', W')) :
    V'.Under u.checker.hierarchy u.graph.nodeCount W' ∧
      r.output.Under u.checker.hierarchy r'.output ∧
      ∀ e ∈ r.edges, ∃ e' ∈ r'.edges, e'.1 = e.1 ∧ e.2.Under u.checker.hierarchy e'.2 := by
  unfold transferBlock at h h'
  split at h
  · rename_i hblock
    simp only [hblock] at h'
    cases h
    cases h'
    exact ⟨hV, hinput, nofun⟩
  · rename_i block hblock
    simp only [hblock] at h'
    have hcollapse := (hinput.collapse hc.lawful).regular
    split at h
    · rename_i hkind
      simp only [hkind] at h'
      cases h
      cases h'
      refine ⟨hV, hinput, List.forall_mem_cons.mpr ⟨?_, List.forall_mem_cons.mpr ⟨?_, nofun⟩⟩⟩
      · exact ⟨_, List.mem_cons_self, rfl, hinput.thenStore.regular⟩
      · exact ⟨_, List.mem_cons_of_mem _ List.mem_cons_self, rfl, hinput.elseStore.regular⟩
    · rename_i kind successor hkind
      simp only [hkind] at h'
      cases h
      cases h'
      refine ⟨hV, hcollapse, fun e he => ?_⟩
      obtain ⟨t, ht, rfl⟩ := List.mem_map.mp he
      exact ⟨_, List.mem_map.mpr ⟨t, ht, rfl⟩, rfl, hcollapse⟩
    · rename_i successor hkind
      simp only [hkind] at h'
      split at h
      · cases h
      · rename_i run hrun
        split at h'
        · cases h'
        · rename_i run' hrun'
          cases h
          cases h'
          obtain ⟨hvalues, hcurrent⟩ := runBlock_mono hc hV hinput hrun hrun'
          exact ⟨hvalues, hcurrent,
            List.forall_mem_cons.mpr ⟨⟨_, List.mem_cons_self, rfl, hcurrent⟩, nofun⟩⟩
    · rename_i successor handlers hkind
      simp only [hkind] at h'
      split at h
      · cases h
      · rename_i run hrun
        split at h'
        · cases h'
        · rename_i run' hrun'
          cases h
          cases h'
          obtain ⟨hvalues, hcurrent⟩ := runBlock_mono hc hV hinput hrun hrun'
          refine ⟨hvalues, hcurrent, fun e he => ?_⟩
          rcases List.mem_append.mp he with he | he
          · obtain ⟨t, ht, rfl⟩ := List.mem_map.mp he
            exact ⟨_, List.mem_append_left _ (List.mem_map.mpr ⟨t, ht, rfl⟩), rfl, hcurrent⟩
          · obtain ⟨t, ht, rfl⟩ := List.mem_map.mp he
            exact ⟨_, List.mem_append_right _ (List.mem_map.mpr ⟨t, ht, rfl⟩), rfl, hcollapse⟩

theorem transferBlock_follows (h : u.transferBlock V id input = .ok (r, V')) :
    ∀ e ∈ r.edges, e.1 ∈ u.graph.successors id := by
  unfold transferBlock at h
  split at h
  · cases h
    exact nofun
  · rename_i block hblock
    suffices hall : ∀ e ∈ r.edges, e.1 ∈ block.kind.successors from
      fun e he => FlowGraph.mem_successors.mpr ⟨block, hblock, hall e he⟩
    split at h
    · rename_i hkind
      cases h
      simp [hkind, BlockKind.successors]
    · rename_i hkind
      cases h
      intro e he
      obtain ⟨t, ht, rfl⟩ := List.mem_map.mp he
      simpa [hkind, BlockKind.successors] using ht
    · rename_i hkind
      split at h
      · cases h
      · cases h
        simp [hkind, BlockKind.successors]
    · rename_i hkind
      split at h
      · cases h
      · cases h
        intro e he
        rw [hkind, BlockKind.successors]
        rcases List.mem_append.mp he with he | he
        · obtain ⟨t, ht, rfl⟩ := List.mem_map.mp he
          exact List.mem_append_left _ ht
        · obtain ⟨t, ht, rfl⟩ := List.mem_map.mp he
          exact List.mem_append_right _ (List.mem_map.mpr ⟨t, ht, rfl⟩)

/-- A transfer changes nodes of its own block only, and sends for the blocks that read
them. -/
theorem transferBlock_frame (hg : u.graph.Valid) (h : u.transferBlock V id input = .ok (r, V'))
    {j : NodeId} (hj : V'.getD j none ≠ V.getD j none) :
    (∃ node, u.graph.node? j = some node ∧ node.block = id) ∧
      u.consumers.getD j [] ⊆ r.revisit := by
  unfold transferBlock at h
  split at h
  · cases h
    exact absurd rfl hj
  · rename_i block hblock
    have hrun {run : BlockRun} (hrun : u.runBlock block V input = (run, none))
        (hj : run.values.getD j none ≠ V.getD j none) :
        (∃ node, u.graph.node? j = some node ∧ node.block = id) ∧
          u.consumers.getD j [] ⊆ run.revisit := by
      have hextends := runNodes_extends hrun
      refine ⟨?_, hextends.noted j hj⟩
      by_cases hmem : j ∈ block.nodes
      · exact hg.listed hblock j hmem
      · exact absurd (hextends.frame j hmem) hj
    split at h
    · cases h
      exact absurd rfl hj
    · cases h
      exact absurd rfl hj
    · split at h
      · cases h
      · cases h
        exact hrun ‹_› hj
    · split at h
      · cases h
      · cases h
        exact hrun ‹_› hj

/-- A transfer repeats itself over qualifiers that agree with those that it left, on the
nodes of its block and on what they read. -/
theorem transferBlock_again (hc : u.checker.Sound) (ho : u.graph.Ordered)
    (hV : V.Under u.checker.hierarchy u.graph.nodeCount V)
    (hinput : input.Under u.checker.hierarchy input)
    (h : u.transferBlock V id input = .ok (r, V'))
    (hown : ∀ block, u.graph.block? id = some block → ∀ j ∈ block.nodes,
      W.getD j none = V'.getD j none)
    (hread : ∀ block, u.graph.block? id = some block → ∀ j ∈ block.nodes,
      ∀ node, u.graph.node? j = some node → ∀ o ∈ node.kind.operands,
        ∀ q, V'.getD o none = some q → W.getD o none = some q) :
    ∃ again, u.transferBlock W id input = .ok (⟨r.output, r.edges, again⟩, W) := by
  unfold transferBlock at h ⊢
  split at h
  · cases h
    exact ⟨_, rfl⟩
  · rename_i block hblock
    dsimp only
    have hrun {run : BlockRun} (hrun : u.runBlock block V input = (run, none))
        (hvalues : run.values = V') :
        u.runBlock block W input = (⟨W, run.current, []⟩, none) := by
      subst hvalues
      exact runNodes_again hc ho (ho.ascending hblock) hV hinput hrun (hown block hblock)
        (hread block hblock)
    split at h
    · cases h
      exact ⟨_, rfl⟩
    · cases h
      exact ⟨_, rfl⟩
    · split at h
      · cases h
      · rename_i run hrun'
        cases h
        rw [hrun hrun' rfl]
        exact ⟨_, rfl⟩
    · split at h
      · cases h
      · rename_i run hrun'
        cases h
        rw [hrun hrun' rfl]
        exact ⟨_, rfl⟩

theorem mem_consumersOf {g : FlowGraph} {o : NodeId} {user : Node} {j : NodeId}
    (huser : g.node? j = some user) (hoperand : o ∈ user.kind.operands)
    (hhome : (g.node? o).map Node.block ≠ some user.block) : user.block ∈ g.consumersOf o := by
  unfold FlowGraph.consumersOf
  dsimp only
  rw [Digraph.mem_distinct, List.mem_filterMap]
  refine ⟨user, Array.mem_toList_iff.mpr (Array.mem_of_getElem? huser), ?_⟩
  rw [if_pos (by simp [hoperand, hhome])]

/-- A block that a transfer does not send for sees none of its changes. -/
theorem transferBlock_apart (hc : u.checker.Sound) (hg : u.graph.Valid) (ho : u.graph.Ordered)
    (hconsumers : ∀ id < u.graph.nodeCount, u.consumers.getD id [] = u.graph.consumersOf id)
    (hV : V.Under u.checker.hierarchy u.graph.nodeCount V)
    (hinput : input'.Under u.checker.hierarchy input')
    (h : u.transferBlock V id input = .ok (r, V')) (hne : other ≠ id)
    (hapart : other ∉ r.revisit) (h' : u.transferBlock V other input' = .ok (r', V)) :
    ∃ again, u.transferBlock V' other input' = .ok (⟨r'.output, r'.edges, again⟩, V') := by
  refine transferBlock_again hc ho hV hinput h' (fun block hblock j hj => ?_)
    (fun block hblock j hj node hnode o hoperand q hq => ?_)
  · by_contra hchanged
    obtain ⟨⟨node, hnode, hhome⟩, -⟩ := transferBlock_frame hg h hchanged
    obtain ⟨node', hnode', hhome'⟩ := hg.listed hblock j hj
    rw [hnode] at hnode'
    cases hnode'
    exact hne (hhome'.symm.trans hhome)
  · rw [← hq]
    by_contra hchanged
    obtain ⟨⟨source, hsource, hhome⟩, hsent⟩ := transferBlock_frame hg h hchanged
    obtain ⟨node', hnode', hhome'⟩ := hg.listed hblock j hj
    rw [hnode] at hnode'
    cases hnode'
    refine hapart (hsent ?_)
    rw [hconsumers o (node?_lt hsource), ← hhome']
    refine mem_consumersOf hnode hoperand ?_
    rw [hsource, Option.map_some, hhome, hhome']
    exact fun heq => hne (Option.some.inj heq).symm

/-- The analysis of qualifiers obeys the laws of the theory. -/
theorem dataflow_lawful (hc : u.checker.Sound) (hg : u.graph.Valid) (ho : u.graph.Ordered)
    (hconsumers : ∀ id < u.graph.nodeCount, u.consumers.getD id [] = u.graph.consumersOf id)
    (hinitial : u.initial.Under u.checker.hierarchy u.initial) :
    u.dataflow.Lawful u.graph (TransferResult.Wf u.checker.hierarchy)
      (TransferResult.Under u.checker.hierarchy)
      (NodeValues.Under u.checker.hierarchy u.graph.nodeCount) := by
  have hh := hc.lawful
  have hself {x : TransferResult} (hx : x.Wf u.checker.hierarchy) (hlive : x.Live) :
      x.Under u.checker.hierarchy x := ⟨hx, hx, hlive, TransferResult.le_refl hh hx⟩
  exact {
    fine := fun h => ⟨h.left, h.right⟩
    refl := fun h => ⟨hself h.left h.live, hself h.right (h.live.of_le h.le)⟩
    trans := fun h h' => ⟨h.left, h'.right, h.live, h.le.trans hh h'.le⟩
    fine_join := fun hx hy => hx.join hh hy
    le_join_left := fun hx hy =>
      ⟨hx.left, hx.left.join hh hy, hx.live, TransferResult.le_join_left hh hx.left hy⟩
    le_join_right := fun hx hy =>
      ⟨hy.left, hx.join hh hy.left, hy.live, TransferResult.le_join_right hh hx hy.left⟩
    join_le := fun hx hy => ⟨hx.left.join hh hy.left, hx.right, hx.live.join hy.live,
      TransferResult.join_le hh hx.left hy.left hx.le hy.le⟩
    same_of_le := fun h h' => TransferResult.same_of_le hh h.left h.right h.live h.le h'.le
    le_of_same := fun hx hy hsame => by
      obtain ⟨hle, hge⟩ := TransferResult.le_of_same hh hx.left hy hsame
      exact ⟨⟨hx.left, hy, hx.live, hle⟩, ⟨hy, hx.left, hx.live.of_le hle, hge⟩⟩
    initial := hinitial.regular
    state_refl := fun h => h.self hh
    transfer := fun hV hf h h' => transferBlock_mono hc hV hf h h'
    follows := transferBlock_follows
    again := fun hV hf h =>
      transferBlock_again hc ho hV hf h (fun _ _ _ _ => rfl) fun _ _ _ _ _ _ _ _ _ hq => hq
    apart := fun hV hf h hne hapart h' =>
      transferBlock_apart hc hg ho hconsumers hV hf h hne hapart h' }

end UnitAnalysis

end FlowTyping
