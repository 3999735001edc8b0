import FlowTyping.Proofs.Flow.Reached
import FlowTyping.Proofs.Graph.Valid

/-!
The passes over the blocks that nothing reaches. A pass runs each block up to a node that
lacks an operand, so it may get on in several blocks and through none: the pass in which a node
is evaluated follows from the order of the blocks and from what the nodes read.
-/

namespace FlowTyping

/-- The nodes that a block lists before one of its nodes. -/
def Block.before (b : Block) (k : NodeId) : List NodeId := b.nodes.takeWhile (· ≠ k)

theorem foldr_max_le {l : List Nat} {m n : Nat} : l.foldr max m ≤ n ↔ m ≤ n ∧ ∀ x ∈ l, x ≤ n := by
  induction l with
  | nil => simp
  | cons x rest ih =>
      rw [List.foldr_cons, Nat.max_le, ih, List.forall_mem_cons]
      exact and_left_comm

namespace FlowGraph

/-- Of blocks in one pass the later ones see what the earlier ones have computed, and the earlier
ones see it a pass after. -/
def lag (g : FlowGraph) (b : BlockId) (o : NodeId) : Nat :=
  match g.node? o with
  | some source => if b < source.block then 1 else 0
  | none => 0

/-- The pass over the blocks that nothing reaches in which a node is evaluated, 0 for nodes that
can be reached. By then its block has got to it and its operands have been evaluated. -/
def due (g : FlowGraph) (k : NodeId) : Nat :=
  match g.node? k with
  | none => 0
  | some node =>
      if g.isReachable node.block then 0
      else
        let listed := ((g.block? node.block).map fun b => b.before k).getD []
        let placed := listed.map fun j => if _h : j < k then g.due j else 0
        let supplied := node.kind.operands.map fun o =>
          if _h : o < k then g.due o + g.lag node.block o else 0
        (placed ++ supplied).foldr max 1
  termination_by k

/-- The pass that comes to the end of a block that nothing reaches. -/
def finished (g : FlowGraph) (b : BlockId) : Nat :=
  ((((g.block? b).map Block.nodes).getD []).map g.due).foldr max 1

/-- A pass comes to the end of no block, although blocks are left. -/
def Stalls (g : FlowGraph) (r : Nat) : Prop :=
  0 < r ∧ (∃ b ∈ g.unreachable, r < g.finished b) ∧ ∀ b ∈ g.unreachable, g.finished b ≠ r

variable {g : FlowGraph} {b : BlockId} {block : Block} {k o : NodeId} {node : Node}
  {pre post : List NodeId} {n : Nat}

theorem due_of_reachable (hnode : g.node? k = some node)
    (hreachable : g.isReachable node.block = true) : g.due k = 0 := by
  rw [due, hnode]
  exact if_pos hreachable

theorem finished_le (hblock : g.block? b = some block) :
    g.finished b ≤ n ↔ 1 ≤ n ∧ ∀ j ∈ block.nodes, g.due j ≤ n := by
  rw [finished, hblock, foldr_max_le]
  simp

theorem finished_pos : 0 < g.finished b := (foldr_max_le.mp (Nat.le_refl (g.finished b))).1

theorem due_le_finished (hblock : g.block? b = some block) (hk : k ∈ block.nodes) :
    g.due k ≤ g.finished b :=
  ((finished_le hblock).mp (Nat.le_refl _)).2 k hk

namespace Valid

/-- A node is evaluated once those before it in its block and its operands have been. -/
theorem due_le (hg : g.Valid) (ho : g.Ordered) (hblock : g.block? b = some block)
    (hnodes : block.nodes = pre ++ k :: post) (hnode : g.node? k = some node)
    (hdead : g.isReachable b = false) :
    g.due k ≤ n ↔ 1 ≤ n ∧ (∀ j ∈ pre, g.due j ≤ n) ∧
      ∀ o ∈ node.kind.operands, g.due o + g.lag b o ≤ n := by
  have hlisted : ∀ j ∈ pre, j < k := by
    have hsorted := ho.ascending hblock
    rw [hnodes] at hsorted
    exact fun j hj => (List.pairwise_append.mp hsorted).2.2 j hj k List.mem_cons_self
  have hbefore : block.before k = pre := by
    rw [Block.before, hnodes, List.takeWhile_append_of_pos fun j hj => by
      simpa using Nat.ne_of_lt (hlisted j hj), List.takeWhile_cons_of_neg (by simp),
      List.append_nil]
  have hhome : node.block = b := by
    obtain ⟨node', hnode', heq⟩ := hg.listed hblock k (by simp [hnodes])
    cases hnode.symm.trans hnode'
    exact heq
  rw [due, hnode]
  dsimp only
  rw [hhome, hdead, hblock, Option.map_some, Option.getD_some, hbefore, if_neg Bool.false_ne_true,
    foldr_max_le]
  simp only [List.forall_mem_append, List.forall_mem_map]
  refine and_congr_right fun _ => and_congr ?_ ?_
  · refine forall₂_congr fun j hj => ?_
    rw [dif_pos (hlisted j hj)]
  · refine forall₂_congr fun o hmem => ?_
    rw [dif_pos (ho.operands hnode o hmem)]

/-- The nodes of a block are evaluated in their order. -/
theorem due_mono (hg : g.Valid) (ho : g.Ordered) (hblock : g.block? b = some block)
    (hnodes : block.nodes = pre ++ k :: post) (hdead : g.isReachable b = false) :
    ∀ j ∈ post, g.due k ≤ g.due j := by
  intro j hj
  obtain ⟨first, last, rfl⟩ := List.append_of_mem hj
  obtain ⟨node, hnode, -⟩ := hg.listed hblock j (by simp [hnodes])
  have hsplit : block.nodes = (pre ++ k :: first) ++ j :: last := by simp [hnodes]
  exact ((hg.due_le ho hblock hsplit hnode hdead).mp (Nat.le_refl _)).2.1 k (by simp)

end Valid

end FlowGraph

/-!
Passes over the blocks that nothing reaches. A pass evaluates the nodes that are due in it and
no others. Repeated passes so come to the end of all blocks, but they are given up when one
comes to the end of none.
-/

/-- The blocks that nothing reaches are listed in the order of their ids. -/
theorem FlowGraph.Accepted.unreachable_sorted {g : FlowGraph} (h : g.Accepted) :
    g.unreachable.Pairwise (· < ·) := by
  obtain ⟨p, hp⟩ := h.toGraph
  exact GraphParts.toGraph_unreachable_sorted hp

namespace UnitAnalysis

variable {u : UnitAnalysis} {V W : NodeValues} {node : Node} {input : TransferResult}
  {e : AnalysisError} {run run' : BlockRun} {id k : NodeId} {q : Qualifier} {b t : BlockId}
  {block : Block} {r : Nat} {done rest : List NodeId} {failure : Option AnalysisError}

/-- A node fails over an operand without a qualifier, and over an unknown name only if there is
no such operand. -/
theorem transferNode_error (h : u.transferNode V node input = .error e) :
    (∃ o ∈ node.kind.operands, ¬ V.Holds o ∧ e = .missingOperand o node.id node.block) ∨
      (∀ o ∈ node.kind.operands, V.Holds o) ∧ ∃ name ∈ node.kind.names,
        u.checker.hierarchy.lookup? name = none ∧
          e = .unknownQualifier name node.block node.id := by
  rcases bind_error.mp h with herror | ⟨_, hall, -⟩
  · obtain ⟨o, ho, hfails⟩ := forM_error herror
    obtain ⟨hnone, rfl⟩ := operand_error (map_error.mp hfails)
    exact .inl ⟨o, ho, hnone, rfl⟩
  · have hheld : ∀ o ∈ node.kind.operands, V.Holds o := by
      intro o ho
      have hoperand := forM_ok.mp hall o ho
      cases hq : operand V node o with
      | error e =>
          rw [hq] at hoperand
          cases hoperand
      | ok q => exact ⟨q, operand_ok.mp hq⟩
    cases transferNode_fails h with
    | missing ho hnone => exact absurd (hheld _ ho) hnone
    | unknown hname hlookup => exact .inr ⟨hheld, _, hname, hlookup, rfl⟩

theorem recordValue_holds (hid : id < run.values.size) (j : NodeId) :
    (u.recordValue id q run).values.Holds j ↔ run.values.Holds j ∨ j = id := by
  unfold NodeValues.Holds
  rw [recordValue_values hid]
  by_cases hj : j = id
  · simp [hj]
  · simp [hj]

/-- The node names a qualifier that the hierarchy lacks, where nothing leads. -/
def Unknown (u : UnitAnalysis) (k : NodeId) : Prop :=
  ∃ node name, u.graph.node? k = some node ∧ u.graph.isReachable node.block = false ∧
    name ∈ node.kind.names ∧ u.checker.hierarchy.lookup? name = none

/-- The qualifiers of the nodes that are due in the passes so far, of which blocks may have
seen different numbers. None of these nodes has an unknown name. -/
structure Reading (u : UnitAnalysis) (passes : BlockId → Nat) (V : NodeValues) : Prop where
  size : V.size = u.graph.nodeCount
  holds : ∀ k node, u.graph.node? k = some node →
    (V.Holds k ↔ u.graph.due k ≤ passes node.block)
  known : ∀ k node, u.graph.node? k = some node → u.Unknown k → passes node.block < u.graph.due k

/-- Within a pass, the blocks before some block have seen one pass more. -/
def passesAt (r t b : Nat) : Nat := if b < t then r + 1 else r

theorem passesAt_le {t b : Nat} : passesAt r t b ≤ r + 1 := by
  unfold passesAt
  split <;> omega

theorem passesAt_mono {t t' : Nat} (h : t ≤ t') (b : Nat) : passesAt r t b ≤ passesAt r t' b := by
  unfold passesAt
  split <;> split <;> omega

theorem passesAt_lt {t t' b : Nat} (h : passesAt r t b < passesAt r t' b) : t ≤ b ∧ b < t' := by
  unfold passesAt at h
  split at h <;> split at h <;> omega

theorem node?_of_holds (hsize : V.size = u.graph.nodeCount) (h : V.Holds k) :
    ∃ node, u.graph.node? k = some node := by
  obtain ⟨q, hq⟩ := h
  have hlt : k < u.graph.nodes.size := by
    by_contra hout
    have hout : ¬ k < V.size := hsize ▸ hout
    simp [hout] at hq
  exact ⟨_, Array.getElem?_eq_getElem hlt⟩

section Block

variable (hg : u.graph.Accepted) (ho : u.graph.Ordered) (hblock : u.graph.block? b = some block)
  (hdead : u.graph.isReachable b = false) (hV : u.Reading (passesAt r b) V)

include hg ho hblock hdead hV

/-- When a pass has come to a node, the node is due if and only if its operands have
qualifiers. -/
theorem ready_iff (hnodes : block.nodes = done ++ k :: rest) (hnode : u.graph.node? k = some node)
    (hdone : ∀ j ∈ done, u.graph.due j ≤ r + 1) (hW : ∀ j, W.Holds j ↔ V.Holds j ∨ j ∈ done) :
    (∀ o ∈ node.kind.operands, W.Holds o) ↔ u.graph.due k ≤ r + 1 := by
  rw [hg.valid.due_le ho hblock hnodes hnode hdead]
  constructor
  · refine fun hheld => ⟨Nat.succ_pos r, hdone, fun o hmem => ?_⟩
    rcases (hW o).mp (hheld o hmem) with hold | hown
    · obtain ⟨source, hsource⟩ := node?_of_holds hV.size hold
      have hle := (hV.holds o source hsource).mp hold
      rw [FlowGraph.lag, hsource]
      dsimp only
      split
      · rename_i hlater
        rw [passesAt, if_neg (Nat.lt_asymm hlater)] at hle
        exact Nat.succ_le_succ hle
      · exact Nat.le_trans hle passesAt_le
    · obtain ⟨source, hsource, hhome⟩ := hg.valid.listed hblock o (by simp [hnodes, hown])
      rw [FlowGraph.lag, hsource]
      dsimp only
      rw [if_neg (by simp [hhome])]
      exact hdone o hown
  · rintro ⟨-, -, hdue⟩ o hmem
    have hlt := ho.operands hnode o hmem
    obtain ⟨source, hsource⟩ : ∃ source, u.graph.node? o = some source :=
      ⟨_, Array.getElem?_eq_getElem (Nat.lt_trans hlt (node?_lt hnode))⟩
    have hdue := hdue o hmem
    rw [FlowGraph.lag, hsource] at hdue
    dsimp only at hdue
    rw [hW o]
    rcases Nat.lt_trichotomy source.block b with hbefore | hsame | hafter
    · refine .inl ((hV.holds o source hsource).mpr ?_)
      rw [passesAt, if_pos hbefore]
      exact Nat.le_trans (Nat.le_add_right _ _) hdue
    · -- The block lists its nodes in ascending order.
      obtain ⟨block', hblock', hown⟩ := hsame ▸ hg.homed hsource
      cases hblock.symm.trans hblock'
      have hsorted := ho.ascending hblock
      rw [hnodes] at hown hsorted
      rcases List.mem_append.mp hown with hown | hown
      · exact .inr hown
      · have hle : k ≤ o := by
          rcases List.mem_cons.mp hown with rfl | hown
          · exact Nat.le_refl _
          · exact Nat.le_of_lt
              ((List.pairwise_cons.mp (List.pairwise_append.mp hsorted).2.1).1 o hown)
        exact absurd hlt (Nat.not_lt.mpr hle)
    · refine .inl ((hV.holds o source hsource).mpr ?_)
      rw [if_pos hafter] at hdue
      rw [passesAt, if_neg (Nat.lt_asymm hafter)]
      exact Nat.le_of_succ_le_succ hdue

/-- In a pass a block evaluates its nodes up to one that is not due. -/
theorem runNodes_due (hnodes : block.nodes = done ++ rest)
    (hdone : ∀ j ∈ done, u.graph.due j ≤ r + 1 ∧ ¬ u.Unknown j)
    (hsize : run.values.size = u.graph.nodeCount)
    (hrun : ∀ j, run.values.Holds j ↔ V.Holds j ∨ j ∈ done)
    (h : u.runNodes rest run = (run', failure)) :
    run'.values.size = u.graph.nodeCount ∧ ∃ pre,
      (∀ j, run'.values.Holds j ↔ V.Holds j ∨ j ∈ pre) ∧
      (∀ j ∈ pre, u.graph.due j ≤ r + 1 ∧ ¬ u.Unknown j) ∧
      (failure = none ∧ block.nodes = pre ∨ ∃ k post, block.nodes = pre ++ k :: post ∧
        ((∃ o, failure = some (.missingOperand o k b) ∧ r + 1 < u.graph.due k) ∨
          ∃ name, failure = some (.unknownQualifier name b k) ∧ u.Unknown k ∧
            u.graph.due k ≤ r + 1)) := by
  induction rest generalizing done run with
  | nil =>
      cases h
      exact ⟨hsize, done, hrun, hdone, .inl ⟨rfl, by simp [hnodes]⟩⟩
  | cons k rest ih =>
      obtain ⟨node, hnode, hhome⟩ := hg.valid.listed hblock k (by simp [hnodes])
      have hready := ready_iff hg ho hblock hdead hV hnodes hnode (fun j hj => (hdone j hj).1) hrun
      rw [runNodes, hnode] at h
      dsimp only at h
      split at h
      · rename_i e htransfer
        cases h
        refine ⟨hsize, done, hrun, hdone, .inr ⟨k, rest, hnodes, ?_⟩⟩
        rw [← hhome, ← hg.valid.node hnode]
        rcases transferNode_error htransfer with
          ⟨o, hmem, hnone, rfl⟩ | ⟨hheld, name, hname, hlookup, rfl⟩
        · refine .inl ⟨o, rfl, Nat.lt_of_not_le fun hdue => hnone ?_⟩
          rw [hg.valid.node hnode] at hdue
          exact hready.mpr hdue o hmem
        · rw [hg.valid.node hnode]
          exact .inr ⟨name, rfl, ⟨node, name, hnode, hhome ▸ hdead, hname, hlookup⟩,
            hready.mp hheld⟩
      · rename_i q result htransfer
        have hdue := hready.mp (operands_of_transferNode htransfer)
        have hknown : ¬ u.Unknown k := by
          rintro ⟨node', name, hnode', -, hname, hlookup⟩
          cases hnode.symm.trans hnode'
          exact names_of_transferNode htransfer name hname hlookup
        have hsplit : block.nodes = (done ++ [k]) ++ rest := by simp [hnodes]
        have hrecorded : ({ u.recordValue k q run with current := result } : BlockRun).values.size =
            u.graph.nodeCount := recordValue_size.trans hsize
        refine ih hsplit (fun j hj => ?_) hrecorded (fun j => ?_) h
        · rcases List.mem_append.mp hj with hj | hj
          · exact hdone j hj
          · obtain rfl := List.mem_singleton.mp hj
            exact ⟨hdue, hknown⟩
        · change (u.recordValue k q run).values.Holds j ↔ _
          rw [recordValue_holds (hsize ▸ node?_lt hnode), hrun, List.mem_append,
            List.mem_singleton, or_assoc]

omit ho hdead in
/-- When the nodes of a block have been run that are due in a pass, the pass is past the block. -/
theorem Reading.past {pre : List NodeId} (hsize : W.size = u.graph.nodeCount)
    (hpre : ∀ j ∈ pre, j ∈ block.nodes ∧ ¬ u.Unknown j)
    (hW : ∀ j, W.Holds j ↔ V.Holds j ∨ j ∈ pre)
    (hdue : ∀ j ∈ block.nodes, j ∈ pre ↔ u.graph.due j ≤ r + 1) :
    u.Reading (passesAt r (b + 1)) W := by
  have hself : passesAt r (b + 1) b = r + 1 := if_pos (Nat.lt_succ_self b)
  have hwas : passesAt r b b = r := if_neg (Nat.lt_irrefl b)
  have hown {j : NodeId} {source : Node} (hsource : u.graph.node? j = some source)
      (heq : source.block = b) : j ∈ block.nodes := by
    obtain ⟨block', hblock', hmem⟩ := heq ▸ hg.homed hsource
    cases hblock.symm.trans hblock'
    exact hmem
  have hother {j : NodeId} {source : Node} (hsource : u.graph.node? j = some source)
      (hne : source.block ≠ b) :
      j ∉ pre ∧ passesAt r (b + 1) source.block = passesAt r b source.block := by
    refine ⟨fun hj => hne (hg.valid.block_of_home ⟨block, hblock, (hpre j hj).1⟩ hsource), ?_⟩
    unfold passesAt
    simp only [Nat.lt_succ_iff_lt_or_eq, hne, or_false]
  refine ⟨hsize, fun j source hsource => ?_, fun j source hsource hunknown => ?_⟩
  · rw [hW, hV.holds j source hsource]
    by_cases heq : source.block = b
    · have hj := hdue j (hown hsource heq)
      rw [heq, hself, hwas, ← hj]
      exact or_iff_right_of_imp fun hle => hj.mpr (Nat.le_succ_of_le hle)
    · obtain ⟨hnot, hpasses⟩ := hother hsource heq
      rw [hpasses, or_iff_left hnot]
  · by_cases heq : source.block = b
    · rw [heq, hself]
      refine Nat.lt_of_not_le fun hle => ?_
      exact (hpre j ((hdue j (hown hsource heq)).mpr hle)).2 hunknown
    · rw [(hother hsource heq).2]
      exact hV.known j source hsource hunknown

/-- What a block does in a pass: it comes to its end if all of its nodes are due, and
otherwise waits or fails over an unknown name. -/
theorem runBlock_due (h : u.runBlock block V input = (run, failure)) :
    (failure = none ∧ u.graph.finished b ≤ r + 1 ∧ u.Reading (passesAt r (b + 1)) run.values) ∨
      (∃ o k, failure = some (.missingOperand o k b) ∧ r + 1 < u.graph.finished b ∧
        u.Reading (passesAt r (b + 1)) run.values) ∨
      ∃ name k, failure = some (.unknownQualifier name b k) ∧ u.Unknown k ∧
        u.graph.due k ≤ r + 1 := by
  have hstart : block.nodes = [] ++ block.nodes := rfl
  obtain ⟨hsize, pre, hholds, hpre, hend⟩ :=
    runNodes_due hg ho hblock hdead hV hstart nofun hV.size (fun j => by simp) h
  rcases hend with ⟨hnone, hnodes⟩ | ⟨k, post, hnodes, ⟨o, hfailure, hdue⟩ | ⟨name, hfailure, hk⟩⟩
  · refine .inl ⟨hnone, (FlowGraph.finished_le hblock).mpr ⟨Nat.succ_pos r, fun j hj => ?_⟩, ?_⟩
    · exact (hpre j (hnodes ▸ hj)).1
    · exact Reading.past hg hblock hV hsize (fun j hj => ⟨hnodes ▸ hj, (hpre j hj).2⟩) hholds
        fun j hj => iff_of_true (hnodes ▸ hj) (hpre j (hnodes ▸ hj)).1
  · refine .inr (.inl ⟨o, k, hfailure, ?_, ?_⟩)
    · exact Nat.lt_of_lt_of_le hdue (FlowGraph.due_le_finished hblock (by simp [hnodes]))
    refine Reading.past hg hblock hV hsize (fun j hj => ⟨by simp [hnodes, hj], (hpre j hj).2⟩)
      hholds fun j hj => ⟨fun hj => (hpre j hj).1, fun hle => ?_⟩
    -- The nodes from the one that is not due on are not due either.
    rw [hnodes] at hj
    rcases List.mem_append.mp hj with hj | hj
    · exact hj
    · have hlate : u.graph.due k ≤ u.graph.due j := by
        rcases List.mem_cons.mp hj with rfl | hj
        · exact Nat.le_refl _
        · exact hg.valid.due_mono ho hblock hnodes hdead j hj
      omega
  · exact .inr (.inr ⟨name, k, hfailure, hk⟩)

end Block

/-- A node is evaluated when its block is finished, if nothing reaches the block. -/
theorem due_le_of_finished (hg : u.graph.Accepted) (hnode : u.graph.node? k = some node) {n : Nat}
    (h : node.block ∈ u.graph.unreachable → u.graph.finished node.block ≤ n) :
    u.graph.due k ≤ n := by
  cases hreachable : u.graph.isReachable node.block with
  | true =>
      rw [FlowGraph.due_of_reachable hnode hreachable]
      exact Nat.zero_le n
  | false =>
      obtain ⟨block, hblock, hk⟩ := hg.homed hnode
      exact Nat.le_trans (FlowGraph.due_le_finished hblock hk)
        (h (by simpa [FlowGraph.isReachable] using hreachable))

/-- Nothing changes between two places of a pass if the blocks there were finished before. -/
theorem Reading.advance (hg : u.graph.Accepted) {passes passes' : BlockId → Nat}
    (hV : u.Reading passes V) (hle : ∀ b, passes b ≤ passes' b)
    (hdone : ∀ b ∈ u.graph.unreachable, passes b < passes' b → u.graph.finished b ≤ passes b) :
    u.Reading passes' V := by
  have hdue : ∀ k node, u.graph.node? k = some node →
      u.graph.due k ≤ passes' node.block → u.graph.due k ≤ passes node.block := by
    intro k node hnode hk
    rcases Nat.lt_or_ge (passes node.block) (passes' node.block) with hlt | hge
    · exact due_le_of_finished hg hnode fun hmem => hdone _ hmem hlt
    · exact Nat.le_trans hk hge
  refine ⟨hV.size, fun k node hnode => ?_, fun k node hnode hunknown => ?_⟩
  · rw [hV.holds k node hnode]
    exact ⟨fun h => Nat.le_trans h (hle _), hdue k node hnode⟩
  · refine Nat.lt_of_not_le fun h => ?_
    exact absurd (hdue k node hnode h) (Nat.not_le.mpr (hV.known k node hnode hunknown))

/-- After some passes, those blocks wait that the passes have not come to the end of. -/
structure Round (u : UnitAnalysis) (r : Nat) (pending : List BlockId) (V : NodeValues) :
    Prop where
  reading : u.Reading (fun _ => r) V
  waiting : pending = u.graph.unreachable.filter (r < u.graph.finished ·)

theorem Round.mem {pending : List BlockId} (h : u.Round r pending V) :
    b ∈ pending ↔ b ∈ u.graph.unreachable ∧ r < u.graph.finished b := by
  rw [h.waiting, List.mem_filter, decide_eq_true_eq]

/-- When no block waits any more, every node has a qualifier, and all names are known. -/
theorem Round.complete (hg : u.graph.Accepted) (h : u.Round r [] V) :
    (∀ k < u.graph.nodeCount, V.Holds k) ∧
    (∀ k, ¬ u.Unknown k) ∧ ∀ r' ≥ r, ¬ u.graph.Stalls r' := by
  have hall : ∀ b ∈ u.graph.unreachable, u.graph.finished b ≤ r :=
    fun b hb => Nat.not_lt.mp fun hlt => List.not_mem_nil (h.mem.mpr ⟨hb, hlt⟩)
  have hdue (k : NodeId) (node : Node) (hnode : u.graph.node? k = some node) :
      u.graph.due k ≤ r := due_le_of_finished hg hnode fun hmem => hall _ hmem
  refine ⟨fun k hk => ?_, fun k hk => ?_, fun r' hr' hstalls => ?_⟩
  · have hnode : u.graph.node? k = some u.graph.nodes[k] := Array.getElem?_eq_getElem hk
    exact (h.reading.holds k _ hnode).mpr (hdue k _ hnode)
  · obtain ⟨node, -, hnode, -⟩ := id hk
    exact absurd (hdue k node hnode) (Nat.not_le.mpr (h.reading.known k node hnode hk))
  · obtain ⟨-, ⟨b, hb, hlt⟩, -⟩ := hstalls
    exact absurd (hall b hb) (Nat.not_le.mpr (Nat.lt_of_le_of_lt hr' hlt))

section Passes

variable (hg : u.graph.Accepted) (ho : u.graph.Ordered)

include hg ho

/-- A pass evaluates the nodes that are due in it. Those blocks wait that it does not come to
the end of. -/
theorem detachedPass_due {pending : List BlockId} (hV : u.Reading (passesAt r t) V)
    (hsorted : pending.Pairwise (· < ·)) (hle : ∀ b ∈ pending, t ≤ b)
    (hdead : ∀ b ∈ pending, b ∈ u.graph.unreachable)
    (hothers : ∀ b ∈ u.graph.unreachable, t ≤ b → b ∉ pending → u.graph.finished b ≤ r) :
    (∃ V' waiting, u.detachedPass pending V = .ok (V', waiting) ∧
        u.Reading (fun _ => r + 1) V' ∧
        waiting.map Prod.fst = pending.filter (r + 1 < u.graph.finished ·)) ∨
      ∃ name b k, u.detachedPass pending V = .error (.unknownQualifier name b k) ∧ u.Unknown k ∧
        u.graph.due k ≤ r + 1 := by
  induction pending generalizing V t with
  | nil =>
      refine .inl ⟨V, [], rfl, hV.advance hg (fun _ => passesAt_le) fun b hb hlt => ?_, rfl⟩
      rw [passesAt] at hlt ⊢
      split at hlt
      · exact absurd hlt (Nat.lt_irrefl _)
      · rename_i hle
        rw [if_neg hle]
        exact hothers b hb (Nat.not_lt.mp hle) List.not_mem_nil
  | cons b rest ih =>
      obtain ⟨hfirst, hrest⟩ := List.pairwise_cons.mp hsorted
      have hmem := hdead b List.mem_cons_self
      obtain ⟨hlt, -⟩ := hg.valid.unreachable.mp hmem
      have hblock : u.graph.block? b = some u.graph.blocks[b] := Array.getElem?_eq_getElem hlt
      have hreachable : u.graph.isReachable b = false := by simpa [FlowGraph.isReachable] using hmem
      -- The blocks between the places were through before the pass.
      have hhere : u.Reading (passesAt r b) V := by
        refine hV.advance hg (passesAt_mono (hle b List.mem_cons_self)) fun m hm hless => ?_
        obtain ⟨hafter, hbefore⟩ := passesAt_lt hless
        rw [passesAt, if_neg (Nat.not_lt.mpr hafter)]
        refine hothers m hm hafter fun hin => ?_
        rcases List.mem_cons.mp hin with rfl | hin
        · exact Nat.lt_irrefl m hbefore
        · exact Nat.lt_asymm hbefore (hfirst m hin)
      have hrec (W : NodeValues) (hW : u.Reading (passesAt r (b + 1)) W) :=
        ih hW hrest hfirst (fun m hm => hdead m (List.mem_cons_of_mem b hm)) fun m hm hafter hout =>
          hothers m hm (Nat.le_trans (hle b List.mem_cons_self) (Nat.le_of_succ_le hafter))
            fun hin => (List.mem_cons.mp hin).elim (Nat.ne_of_gt hafter) hout
      cases hrun : u.runBlock u.graph.blocks[b] V (.regular u.initial) with
      | mk run failure =>
          unfold detachedPass
          rw [hblock]
          dsimp only
          rw [hrun]
          rcases runBlock_due hg ho hblock hreachable hhere hrun with
            ⟨rfl, hfinished, hreading⟩ | ⟨o, k, rfl, hlate, hreading⟩ | ⟨name, k, rfl, hunknown⟩
          · rw [List.filter_cons_of_neg (by simpa using hfinished)]
            exact hrec run.values hreading
          · rw [List.filter_cons_of_pos (by simpa using hlate)]
            rcases hrec run.values hreading with
              ⟨V', waiting, hpass, hreading', hwaiting⟩ | ⟨name, b', k', hpass, hunknown⟩
            · refine .inl ⟨V', (b, .missingOperand o k b) :: waiting, ?_, hreading', ?_⟩
              · exact bind_ok.mpr ⟨(V', waiting), hpass, rfl⟩
              · rw [List.map_cons, hwaiting]
            · exact .inr ⟨name, b', k', bind_error.mpr (.inl hpass), hunknown⟩
          · exact .inr ⟨name, b, k, rfl, hunknown⟩

/-- A pass more, unless it fails over an unknown name that it comes to. -/
theorem Round.pass {pending : List BlockId} (h : u.Round r pending V) :
    (∃ V' waiting, u.detachedPass pending V = .ok (V', waiting) ∧
        u.Round (r + 1) (waiting.map Prod.fst) V' ∧
        waiting.map Prod.fst = pending.filter (r + 1 < u.graph.finished ·)) ∨
      ∃ name b k, u.detachedPass pending V = .error (.unknownQualifier name b k) ∧ u.Unknown k ∧
        u.graph.due k ≤ r + 1 := by
  have hstart : u.Reading (passesAt r 0) V :=
    h.reading.advance hg (fun _ => Nat.le_refl r) fun _ _ hlt => absurd hlt (Nat.lt_irrefl r)
  refine (detachedPass_due hg ho hstart (h.waiting ▸ hg.unreachable_sorted.filter _)
    (fun b _ => Nat.zero_le b) (fun b hb => (h.mem.mp hb).1)
    fun b hb _ hout => Nat.not_lt.mp fun hlt => hout (h.mem.mpr ⟨hb, hlt⟩)).imp_left ?_
  rintro ⟨V', waiting, hpass, hreading, hwaiting⟩
  refine ⟨V', waiting, hpass, ⟨hreading, ?_⟩, hwaiting⟩
  rw [hwaiting, h.waiting, List.filter_filter]
  refine List.filter_congr fun b _ => ?_
  rw [← Bool.decide_and, decide_eq_decide]
  exact and_iff_left_of_imp Nat.lt_of_succ_lt

/-- What passes over the waiting blocks come to. They end with all blocks, are given up after
one that comes to the end of none, or fail over an unknown name before that. -/
theorem Round.outcome {pending : List BlockId} (h : u.Round r pending V) :
    (∃ V', u.evaluateDetached pending V = .ok V' ∧ (∀ k < u.graph.nodeCount, V'.Holds k) ∧
        ∀ r' > r, ¬ u.graph.Stalls r') ∨
      (∃ o k b r', u.evaluateDetached pending V = .error (.missingOperand o k b) ∧ r < r' ∧
        u.graph.Stalls r' ∧ ∀ k, u.Unknown k → r' < u.graph.due k) ∨
      ∃ name b k, u.evaluateDetached pending V = .error (.unknownQualifier name b k) ∧
        u.Unknown k ∧ ∀ r' > r, u.graph.Stalls r' → u.graph.due k ≤ r' := by
  induction pending, V using evaluateDetached.induct u generalizing r with
  | case1 pending V e hfails =>
      rcases h.pass hg ho with ⟨V', waiting, hok, -⟩ | ⟨name, b, k, herror, hk, hdue⟩
      · cases hfails.symm.trans hok
      · refine .inr (.inr ⟨name, b, k, ?_, hk, fun r' hr' _ => Nat.le_trans hdue hr'⟩)
        rw [evaluateDetached, herror]
  | case2 pending V V' hok =>
      rcases h.pass hg ho with ⟨_, _, hok', hnext, -⟩ | ⟨name, b, k, herror, -⟩
      · cases hok.symm.trans hok'
        obtain ⟨hholds, -, hstalls⟩ := Round.complete hg hnext
        refine .inl ⟨V', ?_, hholds, hstalls⟩
        rw [evaluateDetached, hok]
      · cases hok.symm.trans herror
  | case3 pending V V' first others hok hlt ih =>
      rcases h.pass hg ho with ⟨_, _, hok', hnext, hwaiting⟩ | ⟨name, b, k, herror, -⟩
      swap
      · cases hok.symm.trans herror
      cases hok.symm.trans hok'
      -- Fewer blocks wait than before: the pass has come to the end of one.
      have hmoves : ¬ u.graph.Stalls (r + 1) := by
        rintro ⟨-, -, hnone⟩
        have hless : (pending.filter (r + 1 < u.graph.finished ·)).length < pending.length := by
          rw [← hwaiting]
          simpa using hlt
        obtain ⟨b, hb, hend⟩ := List.length_filter_lt_length_iff_exists.mp hless
        obtain ⟨hmem, hafter⟩ := h.mem.mp hb
        have hend : u.graph.finished b ≤ r + 1 := by simpa using hend
        exact hnone b hmem (Nat.le_antisymm hend hafter)
      have hlater {r' : Nat} (hr' : r' > r) (hstalls : u.graph.Stalls r') : r' > r + 1 := by
        refine Nat.lt_of_le_of_ne hr' fun heq => hmoves (heq ▸ hstalls)
      rw [evaluateDetached, hok]
      dsimp only
      rw [if_pos hlt]
      rcases ih hnext with ⟨V'', hdone, hholds, hstalls⟩ |
        ⟨o, k, b, r', hgiven, hr', hstalls⟩ | ⟨name, b, k, hfails, hk, hstalls⟩
      · exact .inl ⟨V'', hdone, hholds, fun r' hr' hs => hstalls r' (hlater hr' hs) hs⟩
      · exact .inr (.inl ⟨o, k, b, r', hgiven, Nat.lt_of_succ_lt hr', hstalls⟩)
      · exact .inr (.inr ⟨name, b, k, hfails, hk, fun r' hr' hs => hstalls r' (hlater hr' hs) hs⟩)
  | case4 pending V V' first others hok hlt =>
      rcases h.pass hg ho with ⟨_, _, hok', hnext, hwaiting⟩ | ⟨name, b, k, herror, -⟩
      swap
      · cases hok.symm.trans herror
      cases hok.symm.trans hok'
      have hall : ∀ b ∈ pending, r + 1 < u.graph.finished b := by
        have hsame : (pending.filter (r + 1 < u.graph.finished ·)).length = pending.length := by
          refine Nat.le_antisymm (List.length_filter_le _ _) ?_
          rw [← hwaiting]
          simpa using hlt
        simpa using List.length_filter_eq_length_iff.mp hsame
      have hfirst : first.1 ∈ pending := by
        have hmem : first.1 ∈ (first :: others).map Prod.fst := List.mem_cons_self
        rw [hwaiting] at hmem
        exact (List.mem_filter.mp hmem).1
      obtain ⟨o, k, hmissing, -⟩ :=
        (detachedPass_passes hg.valid h.reading.size hok).lacks first List.mem_cons_self
      refine .inr (.inl
        ⟨o, k, first.1, r + 1, ?_, Nat.lt_succ_self r, ⟨Nat.succ_pos r, ?_, ?_⟩, ?_⟩)
      · rw [evaluateDetached, hok]
        dsimp only
        rw [if_neg hlt, hmissing]
      · exact ⟨first.1, (h.mem.mp hfirst).1, hall _ hfirst⟩
      · intro b hb heq
        exact absurd (hall b (h.mem.mpr ⟨hb, heq ▸ Nat.lt_succ_self r⟩)) (by simp [heq])
      · rintro k hk
        obtain ⟨node, -, hnode, -⟩ := id hk
        exact hnext.reading.known k node hnode hk

/-- Passes over the waiting blocks, however many of them a pass comes to the end of. -/
def passes (u : UnitAnalysis) : Nat → List BlockId → NodeValues →
    Except AnalysisError (NodeValues × List BlockId)
  | 0, pending, V => .ok (V, pending)
  | n + 1, pending, V => do
      let (V', waiting) ← u.detachedPass pending V
      passes u n (waiting.map Prod.fst) V'

theorem Round.passes {pending : List BlockId} (h : u.Round r pending V)
    (hknown : ∀ k, ¬ u.Unknown k) (n : Nat) :
    ∃ V' waiting, u.passes n pending V = .ok (V', waiting) ∧ u.Round (r + n) waiting V' := by
  induction n generalizing r pending V with
  | zero => exact ⟨V, pending, rfl, h⟩
  | succ n ih =>
      rcases h.pass hg ho with ⟨V', waiting, hpass, hnext, -⟩ | ⟨name, b, k, -, hk, -⟩
      · obtain ⟨V'', waiting', hrest, hround⟩ := ih hnext
        refine ⟨V'', waiting', bind_ok.mpr ⟨(V', waiting), hpass, hrest⟩, ?_⟩
        rwa [Nat.add_right_comm] at hround
      · exact absurd hk (hknown k)

omit hg ho in
/-- Solving is followed by passes over the blocks that nothing reaches. -/
theorem Solved.round (hg : u.graph.Accepted) (ho : u.graph.Ordered)
    {fixpoint : Fixpoint TransferResult} (h : u.Solved fixpoint V) :
    u.Round 0 u.graph.unreachable V := by
  have hdue {k : NodeId} {node : Node} (hnode : u.graph.node? k = some node)
      (hdead : u.graph.isReachable node.block = false) : 0 < u.graph.due k := by
    obtain ⟨block, hblock, hk⟩ := hg.homed hnode
    obtain ⟨pre, post, hnodes⟩ := List.append_of_mem hk
    exact ((hg.valid.due_le ho hblock hnodes hnode hdead).mp (Nat.le_refl _)).1
  have hreaches {k : NodeId} {node : Node} (hnode : u.graph.node? k = some node) :
      u.graph.isReachable node.block = true ↔ u.graph.Reaches node.block := by
    obtain ⟨block, hblock, -⟩ := hg.homed hnode
    exact hg.valid.isReachable_iff (Array.getElem?_eq_some_iff.mp hblock).1
  refine ⟨⟨h.size, fun k node hnode => ?_, fun k node hnode hk => ?_⟩, ?_⟩
  · cases hreachable : u.graph.isReachable node.block with
    | true =>
        rw [FlowGraph.due_of_reachable hnode hreachable]
        exact iff_of_true (h.evaluated _ ((hreaches hnode).mp hreachable) k (hg.homed hnode))
          (Nat.le_refl 0)
    | false =>
        refine iff_of_false (fun hheld => ?_) (Nat.not_le.mpr (hdue hnode hreachable))
        obtain ⟨node', hnode', hreached⟩ := h.homes k hheld
        cases hnode.symm.trans hnode'
        rw [(hreaches hnode).mpr hreached] at hreachable
        cases hreachable
  · obtain ⟨node', -, hnode', hdead, -⟩ := hk
    exact hdue hnode' hdead
  · exact (List.filter_eq_self.mpr fun b _ => by simpa using FlowGraph.finished_pos).symm

end Passes

/-- After solving, blocks that nothing reaches are evaluated in passes. If these come to an end
every node has a qualifier. They stop over a missing operand exactly if a pass stalls that
comes before any unknown name; without that test they would come to the end of all blocks. -/
theorem evaluateDetached_stalls (hg : u.graph.Accepted) (ho : u.graph.Ordered) {limit : Nat}
    {record : Bool} {fixpoint : Fixpoint TransferResult}
    (h : solve u.dataflow u.graph limit record u.noValues = .ok (fixpoint, V)) :
    (∀ V', u.evaluateDetached u.graph.unreachable V = .ok V' →
      ∀ k < u.graph.nodeCount, V'.Holds k) ∧
    ((∃ o k b, u.evaluateDetached u.graph.unreachable V = .error (.missingOperand o k b)) ↔
      ∃ r, u.graph.Stalls r ∧ ∀ k, u.Unknown k → r < u.graph.due k) ∧
    ((∀ k, ¬ u.Unknown k) → ∃ n V', u.passes n u.graph.unreachable V = .ok (V', []) ∧
      ∀ k < u.graph.nodeCount, V'.Holds k) := by
  have hround := (solve_solved hg.valid h).round hg ho
  refine ⟨fun V' hok => ?_, ⟨fun ⟨o, k, b, hmissing⟩ => ?_, fun ⟨r, hstalls, hbefore⟩ => ?_⟩,
    fun hknown => ?_⟩
  · rcases hround.outcome hg ho with ⟨V'', hok', hholds, -⟩ | ⟨_, _, _, _, herror, -⟩ |
      ⟨_, _, _, herror, -⟩
    · cases hok.symm.trans hok'
      exact hholds
    · cases hok.symm.trans herror
    · cases hok.symm.trans herror
  · rcases hround.outcome hg ho with ⟨V', hok, -⟩ | ⟨_, _, _, r, -, -, hstalls⟩ |
      ⟨_, _, _, herror, -⟩
    · cases hmissing.symm.trans hok
    · exact ⟨r, hstalls⟩
    · cases hmissing.symm.trans herror
  · rcases hround.outcome hg ho with ⟨V', -, -, hnone⟩ | ⟨o, k, b, _, herror, -⟩ |
      ⟨_, _, k, -, hk, hfirst⟩
    · exact absurd hstalls (hnone r hstalls.1)
    · exact ⟨o, k, b, herror⟩
    · exact absurd (hfirst r hstalls.1 hstalls) (Nat.not_le.mpr (hbefore k hk))
  · -- The last block to be finished bounds the passes.
    let n := (u.graph.unreachable.map u.graph.finished).foldr max 0
    obtain ⟨V', waiting, hpasses, hlast⟩ := hround.passes hg ho hknown n
    have hempty : waiting = [] := by
      refine List.eq_nil_iff_forall_not_mem.mpr fun b hb => ?_
      obtain ⟨hmem, hlt⟩ := hlast.mem.mp hb
      have hle : u.graph.finished b ≤ n :=
        (foldr_max_le.mp (Nat.le_refl n)).2 _ (List.mem_map.mpr ⟨b, hmem, rfl⟩)
      omega
    subst hempty
    exact ⟨n, V', hpasses, (Round.complete hg hlast).1⟩

end UnitAnalysis

/-- Whether blocks list their nodes in ascending order and nodes read earlier ones. -/
def FlowGraph.isOrdered (g : FlowGraph) : Bool :=
  g.blocks.all (fun block => decide (block.nodes.Pairwise (· < ·))) &&
    (List.range g.nodeCount).all fun i =>
      (g.node? i).all fun node => node.kind.operands.all fun o => decide (o < i)

theorem FlowGraph.ordered_of_isOrdered {g : FlowGraph} (h : g.isOrdered = true) : g.Ordered := by
  rw [isOrdered, Bool.and_eq_true, Array.all_eq_true_iff_forall_mem, List.all_eq_true] at h
  refine ⟨fun hblock => ?_, fun {i node} hnode o ho => ?_⟩
  · exact of_decide_eq_true (h.1 _ (Array.mem_of_getElem? hblock))
  · have hoperands := h.2 i (List.mem_range.mpr (Array.getElem?_eq_some_iff.mp hnode).1)
    rw [hnode] at hoperands
    exact of_decide_eq_true (List.all_eq_true.mp hoperands o ho)

/-- A block that nothing reaches negates what a later one of them computes. -/
def laterParts : GraphParts where
  name := "later"
  blocks := #[⟨0, [], .special .entry (some 1)⟩, ⟨1, [], .special .exit none⟩,
    ⟨2, [], .special .exceptionalExit none⟩, ⟨3, [1], .regular 1⟩, ⟨4, [0], .regular 1⟩]
  nodes := #[⟨0, 4, .literal (.int 1)⟩, ⟨1, 3, .unary .neg 0⟩]
  entry := 0
  exit := 1
  exceptionalExit := 2

theorem laterParts_stalls : ∃ c g fixpoint V V', Checker.ofDeclaration presence = .ok c ∧
    laterParts.toGraph = .ok g ∧ g.Ordered ∧
    solve (UnitAnalysis.new c g (.new c.hierarchy)).dataflow g 10 false
      (UnitAnalysis.new c g (.new c.hierarchy)).noValues = .ok (fixpoint, V) ∧
    (UnitAnalysis.new c g (.new c.hierarchy)).evaluateDetached g.unreachable V = .ok V' ∧
    (∀ k < g.nodeCount, V'.Holds k) ∧
    ¬ ∃ r, g.Stalls r ∧
      ∀ k, (UnitAnalysis.new c g (.new c.hierarchy)).Unknown k → r < g.due k := by
  have hok : ((Checker.ofDeclaration presence).toOption.bind fun c =>
      laterParts.toGraph.toOption.bind fun g =>
        (solve (UnitAnalysis.new c g (.new c.hierarchy)).dataflow g 10 false
            (UnitAnalysis.new c g (.new c.hierarchy)).noValues).toOption.bind fun r =>
          ((UnitAnalysis.new c g (.new c.hierarchy)).evaluateDetached g.unreachable
              r.2).toOption.bind fun _ =>
            if g.isOrdered = true then some () else none).isSome = true := by decide +kernel
  obtain ⟨_, h⟩ := Option.isSome_iff_exists.mp hok
  obtain ⟨c, hc, h⟩ := Option.bind_eq_some_iff.mp h
  obtain ⟨g, hg, h⟩ := Option.bind_eq_some_iff.mp h
  obtain ⟨⟨fixpoint, V⟩, hsolve, h⟩ := Option.bind_eq_some_iff.mp h
  obtain ⟨V', hV', h⟩ := Option.bind_eq_some_iff.mp h
  obtain ⟨hordered, -⟩ := Option.ite_none_right_eq_some.mp h
  have hg := ok_of_toOption hg
  have hordered := FlowGraph.ordered_of_isOrdered hordered
  have hsolve := ok_of_toOption hsolve
  have hV' := ok_of_toOption hV'
  obtain ⟨hholds, hstalls, -⟩ :=
    UnitAnalysis.evaluateDetached_stalls (u := .new c g (.new c.hierarchy)) (.parts hg) hordered
      hsolve
  refine ⟨c, g, fixpoint, V, V', ok_of_toOption hc, hg, hordered, hsolve, hV', hholds V' hV',
    fun hstalled => ?_⟩
  obtain ⟨o, k, b, herror⟩ := hstalls.mpr hstalled
  cases hV'.symm.trans herror

/-- Two blocks that nothing reaches take turns: each of their nodes negates one of the other
block. -/
def crossedParts : GraphParts where
  name := "crossed"
  blocks := #[⟨0, [], .special .entry (some 1)⟩, ⟨1, [], .special .exit none⟩,
    ⟨2, [], .special .exceptionalExit none⟩, ⟨3, [1, 3], .regular 1⟩, ⟨4, [0, 2, 4], .regular 1⟩]
  nodes := #[⟨0, 4, .literal (.int 1)⟩, ⟨1, 3, .unary .neg 0⟩, ⟨2, 4, .unary .neg 1⟩,
    ⟨3, 3, .unary .neg 2⟩, ⟨4, 4, .unary .neg 3⟩]
  entry := 0
  exit := 1
  exceptionalExit := 2

/-- The second pass evaluates a node in each of the two blocks and comes to the end of neither. -/
theorem crossedParts_given_up : ∃ c g fixpoint V, Checker.ofDeclaration presence = .ok c ∧
    crossedParts.toGraph = .ok g ∧ g.Ordered ∧
    solve (UnitAnalysis.new c g (.new c.hierarchy)).dataflow g 10 false
      (UnitAnalysis.new c g (.new c.hierarchy)).noValues = .ok (fixpoint, V) ∧
    (UnitAnalysis.new c g (.new c.hierarchy)).evaluateDetached g.unreachable V =
      .error (.missingOperand 2 3 3) := by
  have hok : ((Checker.ofDeclaration presence).toOption.bind fun c =>
      crossedParts.toGraph.toOption.bind fun g =>
        (solve (UnitAnalysis.new c g (.new c.hierarchy)).dataflow g 10 false
            (UnitAnalysis.new c g (.new c.hierarchy)).noValues).toOption.bind fun r =>
          if g.isOrdered = true ∧
              (UnitAnalysis.new c g (.new c.hierarchy)).evaluateDetached g.unreachable r.2 =
                .error (.missingOperand 2 3 3) then
            some ()
          else none).isSome = true := by decide +kernel
  obtain ⟨_, h⟩ := Option.isSome_iff_exists.mp hok
  obtain ⟨c, hc, h⟩ := Option.bind_eq_some_iff.mp h
  obtain ⟨g, hg, h⟩ := Option.bind_eq_some_iff.mp h
  obtain ⟨⟨fixpoint, V⟩, hsolve, h⟩ := Option.bind_eq_some_iff.mp h
  obtain ⟨⟨hordered, herror⟩, -⟩ := Option.ite_none_right_eq_some.mp h
  exact ⟨c, g, fixpoint, V, ok_of_toOption hc, ok_of_toOption hg,
    FlowGraph.ordered_of_isOrdered hordered, ok_of_toOption hsolve, herror⟩

end FlowTyping
