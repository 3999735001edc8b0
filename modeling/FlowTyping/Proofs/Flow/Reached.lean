import FlowTyping.Proofs.Flow.PathRuns
import FlowTyping.Proofs.Flow.VisitBound
import Mathlib.Tactic.TFAE

/-!
The blocks to which paths from the entry lead are those that an analysis visits: a walk in depth
finds them, the worklist comes to each of them, and nothing is recorded at the others.
-/

namespace FlowTyping

open Relation

namespace FlowGraph

variable {g : FlowGraph} {b : BlockId} {id : NodeId} {node : Node}

/-- The nodes of an accepted graph stand in the blocks that they name. -/
theorem Accepted.homed (h : g.Accepted) (hnode : g.node? id = some node) :
    g.Home id node.block := by
  cases h with
  | parts h =>
      obtain ⟨b, block, hblock, hid⟩ := GraphParts.toGraph_homed h hnode
      obtain ⟨node', hnode', hhome⟩ := (GraphParts.toGraph_valid h).listed hblock id hid
      cases hnode.symm.trans hnode'
      exact ⟨block, hhome ▸ hblock, hid⟩
  | lowered h => exact ProgramUnit.lower_homed h hnode

theorem Valid.block_of_home (hg : g.Valid) (hhome : g.Home id b)
    (hnode : g.node? id = some node) : node.block = b := by
  obtain ⟨block, hblock, hid⟩ := hhome
  obtain ⟨node', hnode', heq⟩ := hg.listed hblock id hid
  cases hnode.symm.trans hnode'
  exact heq

theorem Valid.isReachable_iff (hg : g.Valid) (hb : b < g.size) :
    g.isReachable b = true ↔ g.Reaches b := by
  rw [isReachable, decide_eq_true_eq, hg.unreachable, not_and, not_not]
  exact ⟨fun h => h hb, fun h _ => h⟩

end FlowGraph

namespace Solving

variable {Fact σ : Type} {a : DataflowAnalysis Fact σ} {g : FlowGraph} {ranks : Array Nat}
  {s s' : Solving Fact σ} {block source : BlockId} {rest : List BlockId} {st : σ}

/-- The blocks that are marked as waiting do wait. -/
def Waits (s : Solving Fact σ) : Prop :=
  ∀ b, s.statuses.getD b .unvisited = .pending → b ∈ s.worklist

theorem await_waits (h : s.Waits) : (s.await ranks block).Waits := by
  intro b hb
  change (s.statuses.setIfInBounds block .pending).getD b .unvisited = .pending at hb
  rw [getD_set_status] at hb
  split at hb
  · rename_i hself
    exact mem_schedule.mpr (.inl hself.1)
  · exact mem_schedule.mpr (.inr (h b hb))

theorem propagate_waits (h : s.Waits) (e : BlockId × Fact) :
    (propagate a ranks source s e).Waits := by
  unfold propagate
  split
  · exact await_waits h
  · dsimp only
    split
    · exact h
    · exact await_waits h

theorem revisit_waits (h : s.Waits) (b : BlockId) : (revisit ranks s b).Waits := by
  unfold revisit
  split
  · exact h
  · exact await_waits h

/-- The visited block is marked as visited, and whatever the visit marks as waiting it lists. -/
theorem visit_waits (hs : ∀ b, s.statuses.getD b .unvisited = .pending → b ≠ block →
      b ∈ s.worklist) (hsize : block < s.statuses.size)
    (h : s.visit a g ranks block = .ok s') : s'.Waits := by
  obtain ⟨⟨r, state⟩, -, heq⟩ := bind_ok.mp h
  cases heq
  generalize hstatus :
    (if s.reproduces a block r.output then BlockStatus.stable else .changed) = status
  have hstatus : status ≠ .pending := by
    rw [← hstatus]
    split <;> simp
  refine List.foldlRecOn (motive := fun s : Solving Fact σ => s.Waits) _ _ ?_
    fun _ h x _ => revisit_waits h x
  refine List.foldlRecOn (motive := fun s : Solving Fact σ => s.Waits) _ _ ?_
    fun _ h e _ => propagate_waits h e
  intro b hb
  change (s.statuses.setIfInBounds block status).getD b .unvisited = .pending at hb
  rw [getD_set_status] at hb
  by_cases hself : b = block
  · rw [if_pos ⟨hself, hsize⟩] at hb
    exact absurd hb hstatus
  · rw [if_neg fun h => hself h.1] at hb
    exact hs b hb hself

/-- What is recorded of the blocks between two visits: they have a fact after them if they have
one before, and only they have sent facts. -/
structure Tracks (g : FlowGraph) (s : Solving Fact σ) : Prop where
  outFacts : s.outFacts.size = g.size
  waits : s.Waits
  after : ∀ b, (∃ f, s.table.after b = some f) ↔ s.Seen b
  source : ∀ p t f, s.table.edge p t = some f → s.Seen p

theorem not_seen_start {b : BlockId} : ¬ (start g st : Solving Fact σ).Seen b := by
  rintro ⟨f, hf⟩
  exact absurd ((getD_replicate_none Fact g.size b).symm.trans hf) nofun

theorem start_tracks : (start g st : Solving Fact σ).Tracks g where
  outFacts := Array.size_replicate
  waits b hb := by
    have hmarked : (start g st : Solving Fact σ).Marked b := by
      rw [Marked, hb]
      exact nofun
    exact List.mem_singleton.mpr (known_start (.inr hmarked))
  after b := by
    refine iff_of_false ?_ not_seen_start
    rintro ⟨f, hf⟩
    exact absurd ((getD_replicate_none Fact g.size b).symm.trans hf) nofun
  source _ _ _ := nofun

theorem advance_tracks (hg : g.Valid) (hsweeps : s.Sweeps g) (hs : s.Tracks g)
    (hwork : s.worklist = block :: rest)
    (h : { s with worklist := rest }.visit a g g.ranks block = .ok s')
    (hseen : ∀ b, s'.Seen b ↔ b = block ∨ s.Seen b) : s'.Tracks g := by
  obtain ⟨r, state, -, hv⟩ := visit_ok h
  have hlt : block < g.size := hg.lt_of_reach (hsweeps.reaches (by simp [hwork]))
  refine ⟨?_, ?_, fun b => ?_, fun p t f hf => ?_⟩
  · rw [hv.outFacts, Array.size_setIfInBounds]
    exact hs.outFacts
  · refine visit_waits (fun b hb hne => ?_) (hsweeps.statuses.symm ▸ hlt) h
    have hmem := hs.waits b hb
    rw [hwork] at hmem
    exact (List.mem_cons.mp hmem).resolve_left hne
  · rw [hseen, hv.after (hs.outFacts.symm ▸ hlt)]
    by_cases hb : b = block
    · simp [hb]
    · simp only [hb, if_false, false_or]
      exact hs.after b
  · refine (hseen p).mpr ?_
    by_cases hp : p = block
    · exact .inl hp
    · exact .inr (hs.source p t f ((hv.edge_other hp t).symm.trans hf))

theorem getD_settle (statuses : Array BlockStatus) (b : BlockId) :
    (statuses.map settle).getD b .unvisited = settle (statuses.getD b .unvisited) := by
  simp only [Array.getD_eq_getD_getElem?, Array.getElem?_map]
  cases statuses[b]? <;> rfl

end Solving

namespace UnitAnalysis

variable {u : UnitAnalysis} {V V' : NodeValues} {b : BlockId} {input : TransferResult}
  {run run' : BlockRun} {ids : List NodeId} {r : BlockTransfer TransferResult}
  {s : Solving TransferResult NodeValues}

/-- The operands of the nodes of a block have qualifiers. -/
def Supplied (u : UnitAnalysis) (V : NodeValues) (b : BlockId) : Prop :=
  ∀ k, u.graph.Home k b → ∀ node, u.graph.node? k = some node →
    ∀ o ∈ node.kind.operands, V.Holds o

theorem runNodes_supplied (hids : ∀ id ∈ ids, ∃ node, u.graph.node? id = some node)
    (hsize : run.values.size = u.graph.nodeCount) (h : u.runNodes ids run = (run', none)) :
    ∀ k ∈ ids, ∀ node, u.graph.node? k = some node →
      ∀ o ∈ node.kind.operands, run'.values.Holds o := by
  induction ids generalizing run with
  | nil => exact nofun
  | cons id rest ih =>
      obtain ⟨⟨node, hnode⟩, hrest⟩ := List.forall_mem_cons.mp hids
      obtain ⟨q, next, htransfer, h⟩ := (runNodes_cons_ok hnode).mp h
      have hrecord : Fills [id] run.values (u.recordValue id q run).values :=
        recordValue_fills (hsize ▸ node?_lt hnode)
      have hsize : ({ u.recordValue id q run with current := next } : BlockRun).values.size =
          u.graph.nodeCount := hrecord.size.trans hsize
      refine List.forall_mem_cons.mpr ⟨fun node' hnode' o ho => ?_, ih hrest hsize h⟩
      cases hnode.symm.trans hnode'
      rcases runNodes_fills hrest hsize h with ⟨-, hfills⟩ | ⟨e, _, _, _, _, he, -⟩
      · exact hfills.kept o (hrecord.kept o (operands_of_transferNode htransfer o ho))
      · cases he

theorem transferBlock_supplied (hg : u.graph.Valid) (hsize : V.size = u.graph.nodeCount)
    (h : u.transferBlock V b input = .ok (r, V')) : u.Supplied V' b := by
  rintro k ⟨block, hblock, hk⟩
  obtain ⟨run, hrun, rfl, -⟩ := transferBlock_edges hg hblock h
  exact runNodes_supplied (fun id hid => (hg.listed hblock id hid).imp fun _ h => h.1) hsize hrun
    k hk

/-- The qualifiers that are recorded between two visits: they stand at nodes of visited blocks,
and what these read has them as well. -/
structure Confined (u : UnitAnalysis) (s : Solving TransferResult NodeValues) : Prop where
  tracks : s.Tracks u.graph
  homes : ∀ j, s.state.Holds j → ∃ node, u.graph.node? j = some node ∧ s.Seen node.block
  supplied : ∀ b, s.Seen b → u.Supplied s.state b

theorem advances_confined (hg : u.graph.Valid)
    (h : ReflTransGen (Solving.Advance u.dataflow u.graph u.graph.ranks)
      (.start u.graph u.noValues) s) : u.Confined s := by
  induction h with
  | refl =>
      refine ⟨Solving.start_tracks, fun j ⟨q, hq⟩ => ?_, fun b hb => ?_⟩
      · exact absurd ((getD_noValues j).symm.trans hq) nofun
      · exact absurd hb Solving.not_seen_start
  | @tail s s' hsteps hstep ih =>
      obtain ⟨block, rest, hwork, hvisit⟩ := hstep
      obtain ⟨hsweeps, hvalues⟩ := advances_evaluated hg hsteps
      obtain ⟨-, hseen, input, r, htransfer⟩ :=
        Solving.advance_sweeps hg transferBlock_covers hsweeps hwork hvisit
      obtain ⟨-, hkept, -⟩ := transferBlock_fills hg hvalues.size htransfer
      refine ⟨Solving.advance_tracks hg hsweeps ih.tracks hwork hvisit hseen, fun j hj => ?_,
        fun b hb k hk node hnode o ho => ?_⟩
      · by_cases hsame : s'.state.getD j none = s.state.getD j none
        · obtain ⟨node, hnode, hhome⟩ := ih.homes j (hj.imp fun q hq => hsame ▸ hq)
          exact ⟨node, hnode, (hseen _).mpr (.inr hhome)⟩
        · obtain ⟨⟨node, hnode, hhome⟩, -⟩ := transferBlock_frame hg htransfer hsame
          exact ⟨node, hnode, (hseen _).mpr (.inl hhome)⟩
      · rcases (hseen b).mp hb with rfl | hb
        · exact transferBlock_supplied hg hvalues.size htransfer k hk node hnode o ho
        · exact hkept o (ih.supplied b hb k hk node hnode o ho)

/-- What solving records stands at the blocks that can be reached, and at all of them. -/
structure Solved (u : UnitAnalysis) (fixpoint : Fixpoint TransferResult) (V : NodeValues) :
    Prop where
  size : V.size = u.graph.nodeCount
  before : ∀ b, (∃ f, fixpoint.inFact b = some f) ↔ u.graph.Reaches b
  after : ∀ b, (∃ f, fixpoint.outFact b = some f) ↔ u.graph.Reaches b
  stable : ∀ b, fixpoint.status b = .stable ↔ u.graph.Reaches b
  unvisited : ∀ b, fixpoint.status b = .unvisited ↔ ¬ u.graph.Reaches b
  edges : ∀ e ∈ fixpoint.edgeFacts, u.graph.Reaches e.1.1 ∧ u.graph.Reaches e.1.2
  evaluated : ∀ b, u.graph.Reaches b → ∀ j, u.graph.Home j b → V.Holds j
  homes : ∀ j, V.Holds j → ∃ node, u.graph.node? j = some node ∧ u.graph.Reaches node.block
  supplied : ∀ b, u.graph.Reaches b → u.Supplied V b

theorem solve_solved (hg : u.graph.Valid) {limit : Nat} {record : Bool}
    {fixpoint : Fixpoint TransferResult}
    (h : solve u.dataflow u.graph limit record u.noValues = .ok (fixpoint, V)) :
    u.Solved fixpoint V := by
  obtain ⟨s, hrun, heq⟩ := bind_ok.mp h
  cases heq
  obtain ⟨hsteps, hempty⟩ := Solving.run_advances hrun
  obtain ⟨hsweeps, hvalues⟩ := advances_evaluated hg hsteps
  obtain ⟨htracks, hhomes, hsupplied⟩ := advances_confined hg hsteps
  have hseen (b : BlockId) : s.Seen b ↔ u.graph.Reaches b :=
    ⟨hsweeps.reaches_of_seen, hsweeps.seen hempty⟩
  have hstatus (b : BlockId) :
      (s.result record).status b = Solving.settle (s.statuses.getD b .unvisited) :=
    Solving.getD_settle s.statuses b
  have hmarked (b : BlockId) : s.Marked b ↔ u.graph.Reaches b :=
    ⟨fun hb => hsweeps.known b (.inr hb), fun hb => hsweeps.marked b ((hseen b).mpr hb)⟩
  have hpending (b : BlockId) : s.statuses.getD b .unvisited ≠ .pending := fun hb => by
    simpa [hempty] using htracks.waits b hb
  refine {
    size := hvalues.size
    before := hseen
    after := fun b => (htracks.after b).trans (hseen b)
    stable := fun b => ?_
    unvisited := fun b => ?_
    edges := fun e he => ?_
    evaluated := fun b hb => hvalues.holds b ((hseen b).mpr hb)
    homes := fun j hj => (hhomes j hj).imp fun node h => ⟨h.1, (hseen _).mp h.2⟩
    supplied := fun b hb => hsupplied b ((hseen b).mpr hb) }
  · rw [hstatus, ← hmarked, Solving.Marked]
    have hpending := hpending b
    revert hpending
    cases s.statuses.getD b .unvisited <;> simp [Solving.settle]
  · rw [hstatus, ← hmarked, Solving.Marked]
    cases s.statuses.getD b .unvisited <;> simp [Solving.settle]
  · obtain ⟨f, hf⟩ : ∃ f, s.table.edge e.1.1 e.1.2 = some f := by
      have hfound : (s.edgeFacts.find? fun e' => e'.1 = (e.1.1, e.1.2)).isSome :=
        List.find?_isSome.mpr ⟨e, he, by simp⟩
      obtain ⟨e', he'⟩ := Option.isSome_iff_exists.mp hfound
      exact ⟨e'.2, congrArg (Option.map Prod.snd) he'⟩
    exact ⟨(hseen _).mp (htracks.source _ _ f hf),
      (hseen _).mp ((hsweeps.edge _ _ f hf).resolve_left (by simp [hempty]))⟩

end UnitAnalysis

/-- What an analysis records is at the blocks that paths lead to: each is visited and comes to
rest with a fact before it, a fact after it and qualifiers at its nodes, and no other block has
a status or a fact. -/
structure AnalyzedUnit.Spans (a : AnalyzedUnit) : Prop where
  reached : ∀ b < a.graph.size, [a.graph.Reaches b, a.graph.isReachable b = true,
    ∃ f, a.fixpoint.inFact b = some f, ∃ f, a.fixpoint.outFact b = some f,
    a.fixpoint.status b = .stable].TFAE
  valued : ∀ j node, a.graph.node? j = some node → a.graph.Reaches node.block →
    ∃ q, a.values.getD j none = some q
  others : ∀ b, ¬ a.graph.Reaches b → a.fixpoint.status b = .unvisited ∧
    a.fixpoint.inFact b = none ∧ a.fixpoint.outFact b = none
  edges : ∀ e ∈ a.fixpoint.edgeFacts, a.graph.Reaches e.1.1 ∧ a.graph.Reaches e.1.2
  settled : ∀ b, a.fixpoint.status b ≠ .pending ∧ a.fixpoint.status b ≠ .changed

/-- An analysis visits the blocks that can be reached and no others, and unless it is asked to,
it evaluates no other nodes. -/
theorem Checker.analyzeGraph_spans {c : Checker} {s : AnalysisSettings} {u : ProgramUnit}
    {g : FlowGraph} {a : AnalyzedUnit} (hg : g.Accepted) (h : c.analyzeGraph s u g = .ok a) :
    a.graph = g ∧ a.Spans ∧ (s.checkUnreachable = false → ∀ j node, g.node? j = some node →
      ¬ g.Reaches node.block → a.values.getD j none = none) := by
  obtain ⟨rfl, initial, bound, limit, solved, -, -, hsolve, hconclude⟩ := analyzeGraph_ok h
  obtain ⟨values, hvalues, hdiagnostics⟩ := bind_ok.mp hconclude
  obtain ⟨diagnostics, -, heq⟩ := bind_ok.mp hdiagnostics
  cases heq
  have hs := UnitAnalysis.solve_solved hg.valid hsolve
  have hnone {b : BlockId} {f : BlockId → Option TransferResult}
      (hf : (∃ r, f b = some r) ↔ a.graph.Reaches b) (hb : ¬ a.graph.Reaches b) : f b = none :=
    Option.eq_none_iff_forall_ne_some.mpr fun r hr => hb (hf.mp ⟨r, hr⟩)
  refine ⟨rfl, ⟨fun b hb => ?_, fun j node hnode hreached => ?_, fun b hb => ?_, hs.edges,
    fun b => ?_⟩, fun hflag j node hnode hunreached => ?_⟩
  · tfae_have 1 ↔ 2 := (hg.valid.isReachable_iff hb).symm
    tfae_have 1 ↔ 3 := (hs.before b).symm
    tfae_have 1 ↔ 4 := (hs.after b).symm
    tfae_have 1 ↔ 5 := (hs.stable b).symm
    tfae_finish
  · obtain ⟨q, hq⟩ := hs.evaluated _ hreached j (hg.homed hnode)
    exact ⟨q, (UnitAnalysis.finalValues_reached hg.valid hvalues hnode hreached).trans hq⟩
  · exact ⟨(hs.unvisited b).mpr hb, hnone (hs.before b) hb, hnone (hs.after b) hb⟩
  · by_cases hb : a.graph.Reaches b
    · rw [(hs.stable b).mpr hb]
      exact ⟨nofun, nofun⟩
    · rw [(hs.unvisited b).mpr hb]
      exact ⟨nofun, nofun⟩
  · rw [finalValues, if_neg (by simp [hflag])] at hvalues
    cases hvalues
    refine Option.eq_none_iff_forall_ne_some.mpr fun q hq => ?_
    obtain ⟨node', hnode', hreached⟩ := hs.homes j ⟨q, hq⟩
    cases hnode.symm.trans hnode'
    exact hunreached hreached

theorem abandonedUnit_spans : ∃ c g a j node, Checker.ofDeclaration presence = .ok c ∧
    abandonedUnit.lower = .ok g ∧ c.analyzeGraph .standard abandonedUnit g = .ok a ∧
    a.graph = g ∧ a.Spans ∧ g.node? j = some node ∧ ¬ g.Reaches node.block ∧
    a.values.getD j none = none := by
  have hok : ((Checker.ofDeclaration presence).toOption.bind fun c =>
      abandonedUnit.lower.toOption.bind fun g =>
        (c.analyzeGraph .standard abandonedUnit g).toOption.bind fun _ =>
          (List.range g.nodeCount).findSome? fun j => (g.node? j).bind fun node =>
            if node.block ∈ g.unreachable then some j else none).isSome = true := by
    decide +kernel
  obtain ⟨_, h⟩ := Option.isSome_iff_exists.mp hok
  obtain ⟨c, hc, h⟩ := Option.bind_eq_some_iff.mp h
  obtain ⟨g, hg, h⟩ := Option.bind_eq_some_iff.mp h
  obtain ⟨a, ha, h⟩ := Option.bind_eq_some_iff.mp h
  obtain ⟨j, -, h⟩ := List.exists_of_findSome?_eq_some h
  obtain ⟨node, hnode, h⟩ := Option.bind_eq_some_iff.mp h
  obtain ⟨hunreachable, -⟩ := Option.ite_none_right_eq_some.mp h
  have hg := ok_of_toOption hg
  have ha := ok_of_toOption ha
  have hunreached := ((ProgramUnit.lower_valid hg).unreachable.mp hunreachable).2
  obtain ⟨hgraph, hspans, hnone⟩ := Checker.analyzeGraph_spans (.lowered hg) ha
  exact ⟨c, g, a, j, node, ok_of_toOption hc, hg, ha, hgraph, hspans, hnode, hunreached,
    hnone rfl j node hnode hunreached⟩

end FlowTyping

/-!
What the evaluation of nodes establishes for good: a node with a qualifier names known
qualifiers, and what it reads has a qualifier too.
-/

namespace FlowTyping

open Relation

/-- A node that is checked: one that a path leads to, unless all are asked for. -/
def FlowGraph.Includes (g : FlowGraph) (includeUnreachable : Bool) (node : Node) : Prop :=
  g.node? node.id = some node ∧ (includeUnreachable = true ∨ g.Reaches node.block)

namespace UnitAnalysis

variable {u : UnitAnalysis} {V V' : NodeValues} {b : BlockId} {ids : List NodeId}
  {run run' : BlockRun} {failure : Option AnalysisError} {input : TransferResult}
  {s : Solving TransferResult NodeValues}

/-- Nodes with a qualifier name known ones, and what they read has one as well. -/
def Grounded (u : UnitAnalysis) (V : NodeValues) : Prop :=
  ∀ j, V.Holds j → ∀ node, u.graph.node? j = some node →
    (∀ name ∈ node.kind.names, u.checker.hierarchy.lookup? name ≠ none) ∧
      ∀ o ∈ node.kind.operands, V.Holds o

theorem recordValue_grounded {node : Node} {id : NodeId} {q : Qualifier} {r : TransferResult}
    (hnode : u.graph.node? id = some node) (hsize : run.values.size = u.graph.nodeCount)
    (hrun : u.Grounded run.values)
    (h : u.transferNode run.values node run.current = .ok (q, r)) :
    u.Grounded (u.recordValue id q run).values := by
  have hlt : id < run.values.size := hsize ▸ node?_lt hnode
  have hkept := (recordValue_fills (u := u) (q := q) hlt).kept
  intro j hj node' hnode'
  by_cases hself : j = id
  · subst hself
    cases hnode.symm.trans hnode'
    exact ⟨names_of_transferNode h, fun o ho => hkept o (operands_of_transferNode h o ho)⟩
  · have hold : run.values.Holds j := by
      rwa [NodeValues.Holds, recordValue_values hlt, if_neg hself] at hj
    obtain ⟨hnames, hoperands⟩ := hrun j hold node' hnode'
    exact ⟨hnames, fun o ho => hkept o (hoperands o ho)⟩

theorem runNodes_grounded (hsize : run.values.size = u.graph.nodeCount)
    (hrun : u.Grounded run.values) (h : u.runNodes ids run = (run', failure)) :
    u.Grounded run'.values := by
  induction ids generalizing run with
  | nil =>
      cases h
      exact hrun
  | cons id rest ih =>
      cases hnode : u.graph.node? id with
      | none =>
          rw [runNodes, hnode] at h
          exact ih hsize hrun h
      | some node =>
          rw [runNodes, hnode] at h
          dsimp only at h
          split at h
          · cases h
            exact hrun
          · rename_i q r htransfer
            refine @ih ⟨_, r, _⟩ ?_ ?_ h
            · exact recordValue_size.trans hsize
            · exact recordValue_grounded hnode hsize hrun htransfer

theorem transferBlock_grounded {r : BlockTransfer TransferResult} (hg : u.graph.Valid)
    (hsize : V.size = u.graph.nodeCount) (hV : u.Grounded V)
    (h : u.transferBlock V b input = .ok (r, V')) : u.Grounded V' := by
  cases hblock : u.graph.block? b with
  | none =>
      rw [transferBlock, hblock] at h
      cases h
      exact hV
  | some block =>
      obtain ⟨run, hrun, rfl, -⟩ := transferBlock_edges hg hblock h
      exact runNodes_grounded hsize hV hrun

theorem advances_grounded (hg : u.graph.Valid)
    (h : ReflTransGen (Solving.Advance u.dataflow u.graph u.graph.ranks)
      (.start u.graph u.noValues) s) : u.Grounded s.state := by
  induction h with
  | refl => exact fun j ⟨q, hq⟩ => absurd ((getD_noValues j).symm.trans hq) nofun
  | tail hsteps hstep ih =>
      obtain ⟨block, rest, hwork, hvisit⟩ := hstep
      obtain ⟨hsweeps, hvalues⟩ := advances_evaluated hg hsteps
      obtain ⟨-, -, input, r, htransfer⟩ :=
        Solving.advance_sweeps hg transferBlock_covers hsweeps hwork hvisit
      exact transferBlock_grounded hg hvalues.size ih htransfer

theorem solve_grounded (hg : u.graph.Valid) {limit : Nat} {record : Bool}
    {fixpoint : Fixpoint TransferResult}
    (h : solve u.dataflow u.graph limit record u.noValues = .ok (fixpoint, V)) :
    u.Grounded V := by
  obtain ⟨s, hrun, heq⟩ := bind_ok.mp h
  cases heq
  exact advances_grounded hg (Solving.run_advances hrun).1

theorem detachedPass_grounded (hg : u.graph.Valid) {pending : List BlockId}
    {waiting : List (BlockId × AnalysisError)} (hsize : V.size = u.graph.nodeCount)
    (hV : u.Grounded V) (h : u.detachedPass pending V = .ok (V', waiting)) : u.Grounded V' := by
  induction pending generalizing V waiting with
  | nil =>
      cases h
      exact hV
  | cons b rest ih =>
      rw [detachedPass] at h
      split at h
      · exact ih hsize hV h
      · rename_i block hblock
        have hrun {run : BlockRun} {failure : Option AnalysisError}
            (hrun : u.runBlock block V (.regular u.initial) = (run, failure)) :
            run.values.size = u.graph.nodeCount ∧ u.Grounded run.values :=
          ⟨(runBlock_fills hg hblock hsize hrun).1.trans hsize, runNodes_grounded hsize hV hrun⟩
        split at h
        · exact ih (hrun ‹_›).1 (hrun ‹_›).2 h
        · rename_i hblockRun
          obtain ⟨⟨values, later⟩, hlater, heq⟩ := bind_ok.mp h
          cases heq
          exact ih (hrun hblockRun).1 (hrun hblockRun).2 hlater
        · cases h

/-- Once passes over blocks come to an end the nodes of these blocks have qualifiers. -/
theorem evaluateDetached_grounded (hg : u.graph.Valid) {pending : List BlockId}
    (hsize : V.size = u.graph.nodeCount) (hV : u.Grounded V)
    (h : u.evaluateDetached pending V = .ok V') :
    u.Grounded V' ∧ (∀ j, V.Holds j → V'.Holds j) ∧
      ∀ b ∈ pending, ∀ j, u.graph.Home j b → V'.Holds j := by
  induction pending, V using evaluateDetached.induct u with
  | case1 pending V e hpass =>
      rw [evaluateDetached, hpass] at h
      cases h
  | case2 pending V values hpass =>
      rw [evaluateDetached, hpass] at h
      cases h
      have hpasses := detachedPass_passes hg hsize hpass
      exact ⟨detachedPass_grounded hg hsize hV hpass, hpasses.kept,
        fun b hb => hpasses.done b hb List.not_mem_nil⟩
  | case3 pending V values first others hpass hlt ih =>
      rw [evaluateDetached, hpass] at h
      dsimp only at h
      rw [if_pos hlt] at h
      have hpasses := detachedPass_passes hg hsize hpass
      obtain ⟨hgrounded, hkept, hdone⟩ :=
        ih (hpasses.size.trans hsize) (detachedPass_grounded hg hsize hV hpass) h
      refine ⟨hgrounded, fun j hj => hkept j (hpasses.kept j hj), fun b hb j hj => ?_⟩
      by_cases hwaits : b ∈ (first :: others).map Prod.fst
      · exact hdone b hwaits j hj
      · exact hkept j (hpasses.done b hb hwaits j hj)
  | case4 pending V values first others hpass hlt =>
      rw [evaluateDetached, hpass] at h
      dsimp only at h
      rw [if_neg hlt] at h
      cases h

/-- The nodes that are checked have qualifiers once their evaluation has succeeded. -/
theorem finalValues_grounded (hg : u.graph.Accepted) {s : AnalysisSettings} {limit : Nat}
    {record : Bool} {fixpoint : Fixpoint TransferResult}
    (hsolve : solve u.dataflow u.graph limit record u.noValues = .ok (fixpoint, V))
    (h : Checker.finalValues s u V = .ok V') :
    u.Grounded V' ∧
      ∀ node, u.graph.Includes s.checkUnreachable node → V'.Holds node.id := by
  have hsolved := solve_solved hg.valid hsolve
  have hgrounded := solve_grounded hg.valid hsolve
  unfold Checker.finalValues at h
  split at h
  · obtain ⟨hgrounded', hkept, hdone⟩ :=
      evaluateDetached_grounded hg.valid hsolved.size hgrounded h
    refine ⟨hgrounded', fun node hnode => ?_⟩
    have hhome := hg.homed hnode.1
    by_cases hreached : u.graph.Reaches node.block
    · exact hkept _ (hsolved.evaluated _ hreached _ hhome)
    · obtain ⟨block, hblock, -⟩ := id hhome
      exact hdone _ (hg.valid.unreachable.mpr
        ⟨(Array.getElem?_eq_some_iff.mp hblock).1, hreached⟩) _ hhome
  · rename_i hflag
    cases h
    exact ⟨hgrounded, fun node hnode =>
      hsolved.evaluated _ (hnode.2.resolve_left hflag) _ (hg.homed hnode.1)⟩

end UnitAnalysis

end FlowTyping
